import Mathlib.Data.List.Basic
import Mathlib.Data.Nat.Digits.Defs

/-!
# Compact JSON texts

Values over a type of strings and one of floats; for values without floats a writer, and a
reader that also tells which strings were written with an escape. What the writer writes, the
reader reads back.
-/

namespace ShmMpsc

set_option autoImplicit false

/-- An integer that an `i64` or a `u64` can hold. -/
structure Number where
  val : Int
  lower : -2 ^ 63 ≤ val
  upper : val < 2 ^ 64
  deriving DecidableEq

def Number.ofU64 (n : UInt64) : Number where
  val := n.toNat
  lower := by omega
  upper := by exact_mod_cast n.toNat_lt

def Number.toNat? (n : Number) : Option Nat := if 0 ≤ n.val then some n.val.toNat else none

@[simp] theorem Number.toNat?_ofU64 (n : UInt64) : (Number.ofU64 n).toNat? = some n.toNat := by
  simp [Number.toNat?, Number.ofU64]

/-- Strings and floats are parameters. -/
inductive Json (σ φ : Type) where
  | null
  | bool (b : Bool)
  | num (n : Number)
  | float (x : φ)
  | str (s : σ)
  | arr (items : List (Json σ φ))
  | obj (fields : List (String × Json σ φ))

namespace Json

variable {σ τ φ : Type}

mutual

def map (f : σ → τ) : Json σ φ → Json τ φ
  | .null => .null
  | .bool b => .bool b
  | .num n => .num n
  | .float x => .float x
  | .str s => .str (f s)
  | .arr items => .arr (mapItems f items)
  | .obj fields => .obj (mapFields f fields)

def mapItems (f : σ → τ) : List (Json σ φ) → List (Json τ φ)
  | [] => []
  | v :: items => v.map f :: mapItems f items

def mapFields (f : σ → τ) : List (String × Json σ φ) → List (String × Json τ φ)
  | [] => []
  | (key, v) :: fields => (key, v.map f) :: mapFields f fields

end

/-- No floats, and arrays and objects at most `n` deep. -/
def within : Nat → Json σ φ → Bool
  | _, .null | _, .bool _ | _, .num _ | _, .str _ => true
  | _, .float _ | 0, .arr _ | 0, .obj _ => false
  | n + 1, .arr items => items.all (within n)
  | n + 1, .obj fields => fields.all fun field => within n field.2

end Json

/-! ### String literals -/

/-- The characters that a literal cannot contain as they are. -/
def mustEscape (c : Char) : Bool := c = '"' || c = '\\' || c.toNat < 0x20

/-- A string that was read, and whether its literal has an escape in it. -/
structure Literal where
  value : String
  escaped : Bool
  deriving DecidableEq

/-- What the literal of a string reads as. -/
def Literal.of (s : String) : Literal := { value := s, escaped := s.toList.any mustEscape }

@[simp] theorem Literal.value_of (s : String) : (Literal.of s).value = s := rfl

/-- The character after the backslash, for those that have an escape of their own. -/
def shortEscape : Char → Option Char
  | '"' => some '"'
  | '\\' => some '\\'
  | '\x08' => some 'b'
  | '\x0c' => some 'f'
  | '\n' => some 'n'
  | '\r' => some 'r'
  | '\t' => some 't'
  | _ => none

def escape (c : Char) : List Char :=
  match shortEscape c with
  | some e => ['\\', e]
  | none =>
    if c.toNat < 0x20 then
      ['\\', 'u', '0', '0', Nat.digitChar (c.toNat / 16), Nat.digitChar (c.toNat % 16)]
    else [c]

def shortUnescape : Char → Option Char
  | '"' => some '"'
  | '\\' => some '\\'
  | '/' => some '/'
  | 'b' => some '\x08'
  | 'f' => some '\x0c'
  | 'n' => some '\n'
  | 'r' => some '\r'
  | 't' => some '\t'
  | _ => none

def hexValue (c : Char) : Option Nat :=
  if '0' ≤ c ∧ c ≤ '9' then some (c.toNat - '0'.toNat)
  else if 'a' ≤ c ∧ c ≤ 'f' then some (c.toNat - 'a'.toNat + 10)
  else if 'A' ≤ c ∧ c ≤ 'F' then some (c.toNat - 'A'.toNat + 10)
  else none

/-- Four hexadecimal digits; surrogates are not read. -/
def hexChar (a b c d : Char) : Option Char :=
  match hexValue a, hexValue b, hexValue c, hexValue d with
  | some a, some b, some c, some d =>
    let n := ((a * 16 + b) * 16 + c) * 16 + d
    if n.isValidChar then some (Char.ofNat n) else none
  | _, _, _, _ => none

/-- The rest of a literal, from behind its opening quote. -/
def readString : List Char → Option ((List Char × Bool) × List Char)
  | [] => none
  | '"' :: cs => some (([], false), cs)
  | '\\' :: 'u' :: a :: b :: c :: d :: cs =>
    (hexChar a b c d).bind fun x => (readString cs).map fun r => ((x :: r.1.1, true), r.2)
  | '\\' :: e :: cs =>
    (shortUnescape e).bind fun x => (readString cs).map fun r => ((x :: r.1.1, true), r.2)
  | c :: cs =>
    if mustEscape c then none else (readString cs).map fun r => ((c :: r.1.1, r.1.2), r.2)

theorem hexValue_digitChar : ∀ n < 16, hexValue (Nat.digitChar n) = some n := by
  decide

theorem hexChar_digitChar {c : Char} (h : c.toNat < 0x20) :
    hexChar '0' '0' (Nat.digitChar (c.toNat / 16)) (Nat.digitChar (c.toNat % 16)) = some c := by
  have hzero : hexValue '0' = some 0 := by decide
  have hhigh := hexValue_digitChar (c.toNat / 16) (by omega)
  have hlow := hexValue_digitChar (c.toNat % 16) (by omega)
  have hn : ((0 * 16 + 0) * 16 + c.toNat / 16) * 16 + c.toNat % 16 = c.toNat := by omega
  have hvalid : c.toNat.isValidChar := .inl (by omega)
  simp only [hexChar, hzero, hhigh, hlow, hn, if_pos hvalid, Char.ofNat_toNat]

theorem shortEscape_eq_none {c : Char} (h : shortEscape c = none) : c ≠ '"' ∧ c ≠ '\\' := by
  constructor <;> rintro rfl <;> cases h

theorem readString_escape (c : Char) (cs : List Char) :
    readString (escape c ++ cs) =
      (readString cs).map fun r => ((c :: r.1.1, mustEscape c || r.1.2), r.2) := by
  unfold escape
  split
  · rename_i e he
    unfold shortEscape at he
    split at he <;> cases he <;> simp [readString, shortUnescape, mustEscape]
  · rename_i he
    obtain ⟨hquote, hslash⟩ := shortEscape_eq_none he
    split
    · rename_i hc
      simp [readString, hexChar_digitChar hc, mustEscape, hc]
    · rename_i hc
      have hplain : mustEscape c = false := by simp [mustEscape, hquote, hslash, hc]
      rw [List.singleton_append, readString.eq_def]
      split <;> simp_all

def quote (s : String) : List Char := '"' :: (s.toList.flatMap escape ++ ['"'])

theorem readString_quote (s : String) (cs : List Char) :
    readString (s.toList.flatMap escape ++ '"' :: cs) =
      some ((s.toList, (Literal.of s).escaped), cs) := by
  have hall (l : List Char) : readString (l.flatMap escape ++ '"' :: cs) =
      some ((l, l.any mustEscape), cs) := by
    induction l with
    | nil => rfl
    | cons c l ih =>
      rw [List.flatMap_cons, List.append_assoc, readString_escape, ih]
      rfl
  exact hall s.toList

/-! ### Numbers -/

/-- Decimal digits as they are written, and what follows. -/
def readDigits (cs : List Char) : Option (Nat × List Char) :=
  let ds := cs.takeWhile Char.isDigit
  let n := Nat.ofDigitChars 10 ds 0
  if Nat.toDigits 10 n = ds then some (n, cs.dropWhile Char.isDigit) else none

def Number.print (n : Number) : List Char :=
  if n.val < 0 then '-' :: Nat.toDigits 10 n.val.natAbs else Nat.toDigits 10 n.val.natAbs

def readNum : List Char → Option (Number × List Char)
  | '-' :: cs => (readDigits cs).bind fun r =>
    if h : 0 < r.1 ∧ r.1 ≤ 2 ^ 63 then
      some ({ val := -(r.1 : Int), lower := by omega, upper := by omega }, r.2)
    else none
  | cs => (readDigits cs).bind fun r =>
    if h : r.1 < 2 ^ 64 then some ({ val := r.1, lower := by omega, upper := by omega }, r.2)
    else none

/-- The text does not go on with a digit. -/
def NoDigit (cs : List Char) : Prop := ∀ c, cs.head? = some c → c.isDigit = false

theorem NoDigit.cons {c : Char} {cs : List Char} (h : c.isDigit = false) : NoDigit (c :: cs) := by
  rintro _ ⟨⟩
  exact h

theorem NoDigit.takeWhile {cs : List Char} (h : NoDigit cs) : cs.takeWhile Char.isDigit = [] := by
  cases cs with
  | nil => rfl
  | cons c cs => rw [List.takeWhile_cons, h c rfl]; rfl

theorem readDigits_toDigits (n : Nat) {cs : List Char} (h : NoDigit cs) :
    readDigits (Nat.toDigits 10 n ++ cs) = some (n, cs) := by
  have hdigits : ∀ c ∈ Nat.toDigits 10 n, c.isDigit = true := fun c hc =>
    Nat.isDigit_of_mem_toDigits (by decide) (by decide) hc
  have htake : (Nat.toDigits 10 n ++ cs).takeWhile Char.isDigit = Nat.toDigits 10 n := by
    rw [List.takeWhile_append_of_pos hdigits, h.takeWhile, List.append_nil]
  have hdrop : (Nat.toDigits 10 n ++ cs).dropWhile Char.isDigit = cs := by
    have happend := List.takeWhile_append_dropWhile (p := Char.isDigit)
        (l := Nat.toDigits 10 n ++ cs)
    rwa [htake, List.append_cancel_left_eq] at happend
  simp [readDigits, htake, hdrop]

theorem toDigits_eq_cons (n : Nat) : ∃ c cs, Nat.toDigits 10 n = c :: cs ∧ c.isDigit = true := by
  cases h : Nat.toDigits 10 n with
  | nil => exact absurd h Nat.toDigits_ne_nil
  | cons c cs =>
    exact ⟨c, cs, rfl, Nat.isDigit_of_mem_toDigits (by decide) (by decide) (h ▸ List.mem_cons_self)⟩

theorem Number.print_eq_cons (n : Number) :
    ∃ c cs, n.print = c :: cs ∧ (c.isDigit || c = '-') = true := by
  unfold Number.print
  split
  · exact ⟨_, _, rfl, rfl⟩
  · obtain ⟨c, cs, h, hc⟩ := toDigits_eq_cons n.val.natAbs
    exact ⟨c, cs, h, by rw [hc, Bool.true_or]⟩

theorem readNum_print (n : Number) {cs : List Char} (h : NoDigit cs) :
    readNum (n.print ++ cs) = some (n, cs) := by
  have hlower := n.lower
  have hupper := n.upper
  have hread := readDigits_toDigits n.val.natAbs h
  unfold Number.print
  split
  · rename_i hneg
    have habs : 0 < n.val.natAbs ∧ n.val.natAbs ≤ 2 ^ 63 := by omega
    have hval : -(n.val.natAbs : Int) = n.val := by omega
    simp only [List.cons_append, readNum, hread, Option.bind_some, dif_pos habs, hval]
  · rename_i hpos
    obtain ⟨c, ds, hds, hc⟩ := toDigits_eq_cons n.val.natAbs
    have hne : c ≠ '-' := by
      rintro rfl
      cases hc
    have hval : (n.val.natAbs : Int) = n.val := by omega
    rw [hds, List.cons_append] at hread ⊢
    simp [readNum, hne, hread, hval]
    omega

/-! ### Values -/

namespace Json

mutual

def print : Json String Empty → List Char
  | .null => ['n', 'u', 'l', 'l']
  | .bool true => ['t', 'r', 'u', 'e']
  | .bool false => ['f', 'a', 'l', 's', 'e']
  | .num n => n.print
  | .str s => quote s
  | .arr [] => ['[', ']']
  | .arr (v :: items) => '[' :: (v.print ++ printItems items)
  | .obj [] => ['{', '}']
  | .obj ((key, v) :: fields) => '{' :: (quote key ++ ':' :: (v.print ++ printFields fields))

def printItems : List (Json String Empty) → List Char
  | [] => [']']
  | v :: items => ',' :: (v.print ++ printItems items)

def printFields : List (String × Json String Empty) → List Char
  | [] => ['}']
  | (key, v) :: fields => ',' :: (quote key ++ ':' :: (v.print ++ printFields fields))

end

mutual

/-- A value at the front of the text, with fuel for its depth. -/
def read : Nat → List Char → Option (Json Literal Empty × List Char)
  | 0, _ => none
  | n + 1, cs => match cs with
    | 'n' :: 'u' :: 'l' :: 'l' :: cs => some (.null, cs)
    | 't' :: 'r' :: 'u' :: 'e' :: cs => some (.bool true, cs)
    | 'f' :: 'a' :: 'l' :: 's' :: 'e' :: cs => some (.bool false, cs)
    | '"' :: cs =>
      (readString cs).map fun r => (.str { value := .ofList r.1.1, escaped := r.1.2 }, r.2)
    | '[' :: ']' :: cs => some (.arr [], cs)
    | '[' :: cs =>
      (read n cs).bind fun v => (readItems n v.2).map fun r => (.arr (v.1 :: r.1), r.2)
    | '{' :: '}' :: cs => some (.obj [], cs)
    | '{' :: cs =>
      (readField n cs).bind fun f => (readFields n f.2).map fun r => (.obj (f.1 :: r.1), r.2)
    | cs => (readNum cs).map fun r => (.num r.1, r.2)

def readItems : Nat → List Char → Option (List (Json Literal Empty) × List Char)
  | 0, _ => none
  | n + 1, cs => match cs with
    | ']' :: cs => some ([], cs)
    | ',' :: cs => (read n cs).bind fun v => (readItems n v.2).map fun r => (v.1 :: r.1, r.2)
    | _ => none

def readField : Nat → List Char → Option ((String × Json Literal Empty) × List Char)
  | 0, _ => none
  | n + 1, cs => match cs with
    | '"' :: cs =>
      (readString cs).bind fun key => match key.2 with
        | ':' :: cs => (read n cs).map fun v => ((.ofList key.1.1, v.1), v.2)
        | _ => none
    | _ => none

def readFields : Nat → List Char → Option (List (String × Json Literal Empty) × List Char)
  | 0, _ => none
  | n + 1, cs => match cs with
    | '}' :: cs => some ([], cs)
    | ',' :: cs =>
      (readField n cs).bind fun f => (readFields n f.2).map fun r => (f.1 :: r.1, r.2)
    | _ => none

end

/-! ### What is written is read back -/

theorem noDigit_printItems (items : List (Json String Empty)) (cs : List Char) :
    NoDigit (printItems items ++ cs) := by
  cases items <;> exact .cons rfl

theorem noDigit_printFields (fields : List (String × Json String Empty)) (cs : List Char) :
    NoDigit (printFields fields ++ cs) := by
  cases fields <;> exact .cons rfl

theorem print_eq_cons (v : Json String Empty) : ∃ c cs, v.print = c :: cs ∧ c ≠ ']' := by
  match v with
  | .num n =>
    obtain ⟨c, cs, h, hc⟩ := n.print_eq_cons
    refine ⟨c, cs, h, ?_⟩
    rintro rfl
    cases hc
  | .null | .bool true | .bool false | .str _ | .arr [] | .arr (_ :: _) | .obj [] | .obj (_ :: _) =>
    exact ⟨_, _, rfl, by decide⟩

theorem read_num (m : Number) (n : Nat) {cs : List Char} (h : NoDigit cs) :
    read (n + 1) (m.print ++ cs) = some (.num m, cs) := by
  obtain ⟨c, ds, hds, hc⟩ := m.print_eq_cons
  have hnum := readNum_print m h
  rw [hds, List.cons_append] at hnum ⊢
  have hne (d : Char) (hd : (d.isDigit || d = '-') = false) : c ≠ d := by
    rintro rfl
    rw [hc] at hd
    cases hd
  have hn := hne 'n' rfl
  have ht := hne 't' rfl
  have hf := hne 'f' rfl
  have hquote := hne '"' rfl
  have hbracket := hne '[' rfl
  have hbrace := hne '{' rfl
  simp [read, hnum, hn, ht, hf, hquote, hbracket, hbrace]

theorem items_length_pos (items : List (Json String Empty)) : 0 < (printItems items).length := by
  cases items <;> simp [printItems]

theorem fields_length_pos (fields : List (String × Json String Empty)) :
    0 < (printFields fields).length := by
  cases fields <;> simp [printFields]

theorem readField_print (key : String) {v : Json String Empty} {w : Json Literal Empty} {n : Nat}
    {cs : List Char} (h : read n (v.print ++ cs) = some (w, cs)) :
    readField (n + 1) (quote key ++ ':' :: (v.print ++ cs)) = some ((key, w), cs) := by
  simp [quote, readField, readString_quote, h]

mutual

theorem read_print (v : Json String Empty) (n : Nat) (cs : List Char) (hn : v.print.length ≤ n)
    (hcs : NoDigit cs) : read n (v.print ++ cs) = some (v.map .of, cs) := by
  obtain ⟨c, ds, hv, hc⟩ := print_eq_cons v
  obtain ⟨n, rfl⟩ : ∃ m, n = m + 1 := ⟨n - 1, by rw [hv, List.length_cons] at hn; omega⟩
  match v with
  | .null => simp [print, read, Json.map]
  | .bool true => simp [print, read, Json.map]
  | .bool false => simp [print, read, Json.map]
  | .num m => exact read_num m n hcs
  | .str s =>
    simp [print, quote, read, readString_quote, Json.map, Literal.of]
  | .arr [] => simp [print, read, Json.map, mapItems]
  | .arr (v :: items) =>
    simp only [print, List.length_cons, List.length_append] at hn
    obtain ⟨d, es, hd, hne⟩ := print_eq_cons v
    have hitems := items_length_pos items
    have hfirst := read_print v n (printItems items ++ cs) (by omega) (noDigit_printItems items cs)
    have hrest := readItems_print items n cs (by omega)
    rw [hd, List.cons_append] at hfirst
    simp [print, read, hd, hne, hfirst, hrest, Json.map, mapItems]
  | .obj [] => simp [print, read, Json.map, mapFields]
  | .obj ((key, v) :: fields) =>
    simp only [print, List.length_cons, List.length_append] at hn
    have hfields := fields_length_pos fields
    obtain ⟨n, rfl⟩ : ∃ m, n = m + 1 := ⟨n - 1, by omega⟩
    have hfirst := readField_print key
      (read_print v n (printFields fields ++ cs) (by omega) (noDigit_printFields fields cs))
    have hrest := readFields_print fields (n + 1) cs (by omega)
    simp only [quote, List.cons_append, List.append_assoc, List.nil_append] at hfirst
    simp [print, read, quote, hfirst, hrest, Json.map, mapFields]

theorem readItems_print (items : List (Json String Empty)) (n : Nat) (cs : List Char)
    (hn : (printItems items).length ≤ n) :
    readItems n (printItems items ++ cs) = some (mapItems .of items, cs) := by
  have hpos := items_length_pos items
  obtain ⟨n, rfl⟩ : ∃ m, n = m + 1 := ⟨n - 1, by omega⟩
  match items with
  | [] => simp [printItems, readItems, mapItems]
  | v :: items =>
    simp only [printItems, List.length_cons, List.length_append] at hn
    have hfirst := read_print v n (printItems items ++ cs) (by omega) (noDigit_printItems items cs)
    have hrest := readItems_print items n cs (by omega)
    simp [printItems, readItems, hfirst, hrest, mapItems]

theorem readFields_print (fields : List (String × Json String Empty)) (n : Nat) (cs : List Char)
    (hn : (printFields fields).length ≤ n) :
    readFields n (printFields fields ++ cs) = some (mapFields .of fields, cs) := by
  have hpos := fields_length_pos fields
  obtain ⟨n, rfl⟩ : ∃ m, n = m + 1 := ⟨n - 1, by omega⟩
  match fields with
  | [] => simp [printFields, readFields, mapFields]
  | (key, v) :: fields =>
    simp only [printFields, List.length_cons, List.length_append] at hn
    obtain ⟨n, rfl⟩ : ∃ m, n = m + 1 := ⟨n - 1, by omega⟩
    have hfirst := readField_print key
      (read_print v n (printFields fields ++ cs) (by omega) (noDigit_printFields fields cs))
    have hrest := readFields_print fields (n + 1) cs (by omega)
    simp only [printFields, List.cons_append, List.append_assoc]
    rw [readFields]
    simp [hfirst, hrest, mapFields]

end

/-- A whole text. -/
def parse (cs : List Char) : Option (Json Literal Empty) :=
  match read cs.length cs with
  | some (v, []) => some v
  | _ => none

theorem parse_print (v : Json String Empty) : parse v.print = some (v.map .of) := by
  have h := read_print v v.print.length [] (Nat.le_refl _) (by rintro _ ⟨⟩)
  rw [List.append_nil] at h
  rw [parse, h]

end Json

/-! ### More behind a text, and less of it -/

theorem readString_append {cs rest : List Char} {r : List Char × Bool} (more : List Char)
    (h : readString cs = some (r, rest)) : readString (cs ++ more) = some (r, rest ++ more) := by
  induction cs using readString.induct generalizing r rest with
  | case1 => cases h
  | case2 cs =>
    cases h
    rfl
  | case3 a b c d cs ih =>
    simp only [readString] at h
    obtain ⟨x, hx, h⟩ := Option.bind_eq_some_iff.mp h
    obtain ⟨⟨r', rest'⟩, hr, h⟩ := Option.map_eq_some_iff.mp h
    cases h
    simp [readString, hx, ih hr]
  | case4 e cs hne ih =>
    rw [readString.eq_4 _ _ hne] at h
    obtain ⟨x, hx, h⟩ := Option.bind_eq_some_iff.mp h
    obtain ⟨⟨r', rest'⟩, hr, h⟩ := Option.map_eq_some_iff.mp h
    cases h
    have hu : e ≠ 'u' := by
      rintro rfl
      cases hx
    rw [List.cons_append, List.cons_append, readString.eq_4 _ _ (by
      intro a b c d cs' hu'
      exact absurd hu' hu), hx, ih hr]
    rfl
  | case5 c cs hquote hlong hslash hmust =>
    rw [readString.eq_5 _ _ hquote hlong hslash, if_pos hmust] at h
    cases h
  | case6 c cs hquote hlong hslash hmust ih =>
    rw [readString.eq_5 _ _ hquote hlong hslash, if_neg hmust] at h
    obtain ⟨⟨r', rest'⟩, hr, h⟩ := Option.map_eq_some_iff.mp h
    cases h
    have hplain : c ≠ '\\' := by
      rintro rfl
      exact hmust rfl
    rw [List.cons_append, readString.eq_5 _ _ hquote (fun a b c d cs' hc => absurd hc hplain)
      (fun e cs' hc => absurd hc hplain), if_neg hmust, ih hr]
    rfl

theorem readDigits_append {cs rest : List Char} {n : Nat} (more : List Char)
    (h : readDigits cs = some (n, rest)) (hrest : rest ≠ []) :
    readDigits (cs ++ more) = some (n, rest ++ more) := by
  unfold readDigits at h ⊢
  dsimp only at h ⊢
  split at h
  · rename_i heq
    cases h
    have hlen : (cs.takeWhile Char.isDigit).length ≠ cs.length := by
      intro hlen
      have happend :=
        congrArg List.length (List.takeWhile_append_dropWhile (p := Char.isDigit) (l := cs))
      rw [List.length_append, hlen] at happend
      exact hrest (List.length_eq_zero_iff.mp (by omega))
    rw [List.takeWhile_append, if_neg hlen, if_pos heq, List.dropWhile_append,
      if_neg (by simpa using hrest)]
  · cases h

theorem readNum_append {cs rest : List Char} {n : Number} (more : List Char)
    (h : readNum cs = some (n, rest)) (hrest : rest ≠ []) :
    readNum (cs ++ more) = some (n, rest ++ more) := by
  unfold readNum at h
  split at h
  · obtain ⟨⟨k, rest'⟩, hk, h⟩ := Option.bind_eq_some_iff.mp h
    split at h
    · rename_i hle
      cases h
      simpa [readNum, readDigits_append more hk hrest, hle.1] using hle.2
    · cases h
  · rename_i hminus
    obtain ⟨⟨k, rest'⟩, hk, h⟩ := Option.bind_eq_some_iff.mp h
    split at h
    · rename_i hlt
      cases h
      have hd := readDigits_append more hk hrest
      cases cs with
      | nil => cases hk
      | cons c cs =>
        have hc : c ≠ '-' := by
          rintro rfl
          exact hminus cs rfl
        rw [List.cons_append] at hd ⊢
        simpa [readNum, hc, hd] using hlt
    · cases h

/-- A number begins with a digit or its sign. -/
theorem readNum_head {cs : List Char} {r : Number × List Char} (h : readNum cs = some r) :
    ∃ c ds, cs = c :: ds ∧ (c.isDigit || c = '-') = true := by
  cases cs with
  | nil => cases h
  | cons c ds =>
    refine ⟨c, ds, rfl, ?_⟩
    by_contra hc
    obtain ⟨hdigit, hminus⟩ : c.isDigit = false ∧ c ≠ '-' := by simpa using hc
    have hnone : readDigits (c :: ds) = none := by
      have htake : (c :: ds).takeWhile Char.isDigit = [] := by simp [hdigit]
      simp only [readDigits, htake]
      rfl
    simp [readNum, hminus, hnone] at h

namespace Json

/-- What begins like a number is read as one. -/
theorem read_of_number (n : Nat) {c : Char} (ds : List Char) (hc : (c.isDigit || c = '-') = true) :
    read (n + 1) (c :: ds) = (readNum (c :: ds)).map fun r => (.num r.1, r.2) := by
  have hne (d : Char) (hd : (d.isDigit || d = '-') = false) : c ≠ d := by
    rintro rfl
    rw [hc] at hd
    cases hd
  have hn := hne 'n' rfl
  have ht := hne 't' rfl
  have hf := hne 'f' rfl
  have hquote := hne '"' rfl
  have hbracket := hne '[' rfl
  have hbrace := hne '{' rfl
  simp [read, hn, ht, hf, hquote, hbracket, hbrace]

theorem read_nil (n : Nat) : read n [] = none := by
  cases n <;> rfl

theorem readItems_nil (n : Nat) : readItems n [] = none := by
  cases n <;> rfl

theorem readFields_nil (n : Nat) : readFields n [] = none := by
  cases n <;> rfl

theorem readField_nil (n : Nat) : readField n [] = none := by
  cases n <;> rfl

mutual

/-- What was read is read, whatever more there is, unless it is a number up to the end. -/
theorem read_append {n m : Nat} {cs rest : List Char} {v : Json Literal Empty} (more : List Char)
    (hnm : n ≤ m) (h : read n cs = some (v, rest)) (hv : rest ≠ [] ∨ ∀ k, v ≠ .num k) :
    read m (cs ++ more) = some (v, rest ++ more) := by
  match n, m with
  | n + 1, m + 1 =>
    have hle : n ≤ m := Nat.le_of_succ_le_succ hnm
    simp only [read] at h
    split at h
    · cases h
      rfl
    · cases h
      rfl
    · cases h
      rfl
    · obtain ⟨⟨r, rest'⟩, hr, h⟩ := Option.map_eq_some_iff.mp h
      cases h
      simp [read, readString_append more hr]
    · cases h
      rfl
    · rename_i cs hne
      obtain ⟨⟨w, cs1⟩, hw, h⟩ := Option.bind_eq_some_iff.mp h
      obtain ⟨⟨items, rest'⟩, hitems, h⟩ := Option.map_eq_some_iff.mp h
      cases h
      have hfirst := read_append more hle hw (.inl fun h => by
        rw [h, readItems_nil] at hitems
        cases hitems)
      have hrest := readItems_append more hle hitems
      cases cs with
      | nil => cases (read_nil n).symm.trans hw
      | cons c cs =>
        have hc : c ≠ ']' := by
          rintro rfl
          exact hne cs rfl
        rw [List.cons_append] at hfirst
        simp [read, hc, hfirst, hrest]
    · cases h
      rfl
    · rename_i cs hne
      obtain ⟨⟨field, cs1⟩, hfield, h⟩ := Option.bind_eq_some_iff.mp h
      obtain ⟨⟨fields, rest'⟩, hfields, h⟩ := Option.map_eq_some_iff.mp h
      cases h
      have hfirst := readField_append more hle hfield (fun h => by
        rw [h, readFields_nil] at hfields
        cases hfields)
      have hrest := readFields_append more hle hfields
      cases cs with
      | nil => cases (readField_nil n).symm.trans hfield
      | cons c cs =>
        have hc : c ≠ '}' := by
          rintro rfl
          exact hne cs rfl
        rw [List.cons_append] at hfirst
        simp [read, hc, hfirst, hrest]
    · obtain ⟨⟨k, rest'⟩, hk, h⟩ := Option.map_eq_some_iff.mp h
      cases h
      have hnum := readNum_append more hk (hv.resolve_right fun h => h k rfl)
      obtain ⟨c, ds, rfl, hc⟩ := readNum_head hk
      rw [List.cons_append] at hnum ⊢
      rw [read_of_number m _ hc, hnum]
      rfl

theorem readItems_append {n m : Nat} {cs rest : List Char} {items : List (Json Literal Empty)}
    (more : List Char) (hnm : n ≤ m) (h : readItems n cs = some (items, rest)) :
    readItems m (cs ++ more) = some (items, rest ++ more) := by
  match n, m with
  | n + 1, m + 1 =>
    have hle : n ≤ m := Nat.le_of_succ_le_succ hnm
    simp only [readItems] at h
    split at h
    · cases h
      rfl
    · obtain ⟨⟨w, cs1⟩, hw, h⟩ := Option.bind_eq_some_iff.mp h
      obtain ⟨⟨items, rest'⟩, hitems, h⟩ := Option.map_eq_some_iff.mp h
      cases h
      have hfirst := read_append more hle hw (.inl fun h => by
        rw [h, readItems_nil] at hitems
        cases hitems)
      simp [readItems, hfirst, readItems_append more hle hitems]
    · cases h

theorem readField_append {n m : Nat} {cs rest : List Char} {field : String × Json Literal Empty}
    (more : List Char) (hnm : n ≤ m) (h : readField n cs = some (field, rest)) (hrest : rest ≠ []) :
    readField m (cs ++ more) = some (field, rest ++ more) := by
  match n, m with
  | n + 1, m + 1 =>
    have hle : n ≤ m := Nat.le_of_succ_le_succ hnm
    simp only [readField] at h
    split at h
    · obtain ⟨⟨key, cs1⟩, hkey, h⟩ := Option.bind_eq_some_iff.mp h
      dsimp only at h
      split at h
      · obtain ⟨⟨w, cs2⟩, hw, h⟩ := Option.map_eq_some_iff.mp h
        cases h
        have hkey' := readString_append more hkey
        rw [List.cons_append] at hkey'
        simp [readField, hkey', read_append more hle hw (.inl hrest)]
      · cases h
    · cases h

theorem readFields_append {n m : Nat} {cs rest : List Char}
    {fields : List (String × Json Literal Empty)} (more : List Char) (hnm : n ≤ m)
    (h : readFields n cs = some (fields, rest)) :
    readFields m (cs ++ more) = some (fields, rest ++ more) := by
  match n, m with
  | n + 1, m + 1 =>
    have hle : n ≤ m := Nat.le_of_succ_le_succ hnm
    simp only [readFields] at h
    split at h
    · cases h
      rfl
    · obtain ⟨⟨field, cs1⟩, hfield, h⟩ := Option.bind_eq_some_iff.mp h
      obtain ⟨⟨fields, rest'⟩, hfields, h⟩ := Option.map_eq_some_iff.mp h
      cases h
      have hfirst := readField_append more hle hfield fun h => by
        rw [h, readFields_nil] at hfields
        cases hfields
      simp [readFields, hfirst, readFields_append more hle hfields]
    · cases h

end

theorem readNum_of_read {n : Nat} {cs rest : List Char} {k : Number}
    (h : read n cs = some (.num k, rest)) : (readNum cs).isSome := by
  cases n with
  | zero => cases h
  | succ n =>
    simp only [read] at h
    split at h
    · cases h
    · cases h
    · cases h
    · obtain ⟨r, _, h⟩ := Option.map_eq_some_iff.mp h
      cases h
    · cases h
    · obtain ⟨w, _, h⟩ := Option.bind_eq_some_iff.mp h
      obtain ⟨r, _, h⟩ := Option.map_eq_some_iff.mp h
      cases h
    · cases h
    · obtain ⟨w, _, h⟩ := Option.bind_eq_some_iff.mp h
      obtain ⟨r, _, h⟩ := Option.map_eq_some_iff.mp h
      cases h
    · obtain ⟨r, hr, _⟩ := Option.map_eq_some_iff.mp h
      rw [hr]
      rfl

theorem print_obj_eq_cons (fields : List (String × Json String Empty)) :
    ∃ ds, print (.obj fields) = '{' :: ds := by
  cases fields <;> exact ⟨_, rfl⟩

/-- An object that is cut short is no text. -/
theorem parse_cut {cs more : List Char} {fields : List (String × Json String Empty)}
    (h : cs ++ more = print (.obj fields)) (hmore : more ≠ []) : parse cs = none := by
  unfold parse
  split
  · rename_i v hv
    have hnum : ∀ k, v ≠ .num k := by
      rintro k rfl
      obtain ⟨r, hr⟩ := Option.isSome_iff_exists.mp (readNum_of_read hv)
      obtain ⟨c, ds, rfl, hc⟩ := readNum_head hr
      obtain ⟨es, hprint⟩ := print_obj_eq_cons fields
      rw [hprint] at h
      obtain ⟨rfl, -⟩ := List.cons.inj h
      cases hc
    have hle : cs.length ≤ (print (.obj fields)).length := by
      rw [← h, List.length_append]
      exact Nat.le_add_right _ _
    have hcut := read_append more hle hv (.inr hnum)
    have hfull := read_print (.obj fields) _ [] (Nat.le_refl _) (by rintro _ ⟨⟩)
    rw [h] at hcut
    rw [List.append_nil, hcut] at hfull
    cases hfull
    exact absurd rfl hmore
  · rfl

end Json

end ShmMpsc
