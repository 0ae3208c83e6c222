import ShmMpsc.Lib.Json
import ShmMpsc.Lib.Utf8

/-!
# JSON through serde

`serde_json` is a parameter: values to texts and back. What `#[derive(Deserialize)]` makes of a
struct is written out, and so is `serde_json::Value`.
-/

namespace ShmMpsc

set_option autoImplicit false

variable {σ φ : Type}

/-- What is used of `serde_json`. A string that was read comes with whether its literal has an
escape in it. -/
structure SerdeJson (φ : Type) where
  toWriter : Json String φ → List UInt8
  fromSlice : List UInt8 → Option (Json Literal φ)

/-- The texts are standard JSON, where a literal escapes `"`, `\`, what is below U+0020 and
nothing else, and up to the recursion limit they are read back. -/
structure SerdeJson.Documented (sj : SerdeJson φ) : Prop where
  roundTrip : ∀ v, v.within 127 → sj.fromSlice (sj.toWriter v) = some (v.map .of)

/-- Compact JSON as it is commonly written, without floats. -/
def compactJson : SerdeJson Empty where
  toWriter := fun v => utf8 (.ofList v.print)
  fromSlice := fun raw => (fromUtf8 raw).bind fun s => Json.parse s.toList

theorem compactJson_documented : compactJson.Documented where
  roundTrip := fun v _ => by simp [compactJson, Json.parse_print]

namespace Json

/-! ### Deserialize -/

/-- The value of a field; a field that comes twice is an error. -/
def fieldOnce (name : String) (fields : List (String × Json σ φ)) :
    Option (Option (Json σ φ)) :=
  match fields.filter fun field => field.1 = name with
  | [] => some none
  | [(_, v)] => some (some v)
  | _ => none

theorem fieldOnce_of_mem {name : String} {fields : List (String × Json σ φ)}
    (h : (fields.map Prod.fst).Nodup) {v : Json σ φ} (hv : (name, v) ∈ fields) :
    fieldOnce name fields = some (some v) := by
  have hfilter : fields.filter (fun field => field.1 = name) = [(name, v)] := by
    induction fields with
    | nil => cases hv
    | cons field fields ih =>
      rw [List.map_cons, List.nodup_cons] at h
      rcases List.mem_cons.mp hv with rfl | hv
      · rw [List.filter_cons_of_pos (by simp), List.filter_eq_nil_iff.mpr]
        intro other ho heq
        exact h.1 (List.mem_map.mpr ⟨other, ho, by simpa using heq⟩)
      · have hne : field.1 ≠ name := fun heq => h.1 (List.mem_map.mpr ⟨_, hv, heq.symm⟩)
        rw [List.filter_cons_of_neg (by simpa using hne), ih h.2 hv]
  rw [fieldOnce, hfilter]

theorem fieldOnce_of_not_mem {name : String} {fields : List (String × Json σ φ)}
    (h : ∀ v, (name, v) ∉ fields) : fieldOnce name fields = some none := by
  have hfilter : fields.filter (fun field => field.1 = name) = [] := by
    refine List.filter_eq_nil_iff.mpr fun field hf heq => ?_
    obtain rfl : field.1 = name := by simpa using heq
    exact h field.2 hf
  rw [fieldOnce, hfilter]

/-- The fields of a struct, all of them required: from a map, in which others are ignored, or
from a sequence. -/
def members (names : List String) : Json σ φ → Option (List (Json σ φ))
  | .obj fields => names.mapM fun name => (fieldOnce name fields).join
  | .arr items => if items.length = names.length then some items else none
  | _ => none

def asU64 : Json σ φ → Option UInt64
  | .num n => n.toNat?.map UInt64.ofNat
  | _ => none

def asU32 : Json σ φ → Option UInt32
  | .num n => n.toNat?.bind fun n => if n < 2 ^ 32 then some (UInt32.ofNat n) else none
  | _ => none

/-- A `String` field. -/
def asString : Json Literal φ → Option String
  | .str s => some s.value
  | _ => none

/-- A `&'a str` field: only a literal without escapes can be borrowed. -/
def asBorrowed : Json Literal φ → Option String
  | .str s => if s.escaped then none else some s.value
  | _ => none

/-! ### `Value` -/

/-- Into a map in the order of its keys, unless the key is there. -/
def insertNew (key : String) (v : Json σ φ) : List (String × Json σ φ) → List (String × Json σ φ)
  | [] => [(key, v)]
  | field :: fields =>
    if key = field.1 then field :: fields
    else if key < field.1 then (key, v) :: field :: fields
    else field :: insertNew key v fields

@[simp] theorem insertNew_nil (key : String) (v : Json σ φ) : insertNew key v [] = [(key, v)] := rfl

theorem insertNew_lt {key name : String} (h : key < name) (v w : Json σ φ)
    (fields : List (String × Json σ φ)) :
    insertNew key v ((name, w) :: fields) = (key, v) :: (name, w) :: fields := by
  have hne : key ≠ name := by
    rintro rfl
    exact String.lt_irrefl _ h
  rw [insertNew, if_neg hne, if_pos h]

theorem insertNew_gt {key name : String} (h : name < key) (v w : Json σ φ)
    (fields : List (String × Json σ φ)) :
    insertNew key v ((name, w) :: fields) = (name, w) :: insertNew key v fields := by
  have hne : key ≠ name := by
    rintro rfl
    exact String.lt_irrefl _ h
  rw [insertNew, if_neg hne, if_neg (String.lt_asymm h)]

mutual

/-- The `Value` of a text: of a key that comes twice its map keeps the last. -/
def toValue : Json Literal φ → Json String φ
  | .null => .null
  | .bool b => .bool b
  | .num n => .num n
  | .float x => .float x
  | .str s => .str s.value
  | .arr items => .arr (toValueItems items)
  | .obj fields => .obj (toValueFields fields)

def toValueItems : List (Json Literal φ) → List (Json String φ)
  | [] => []
  | v :: items => v.toValue :: toValueItems items

def toValueFields : List (String × Json Literal φ) → List (String × Json String φ)
  | [] => []
  | (key, v) :: fields => insertNew key v.toValue (toValueFields fields)

end

/-- `Value::get`. -/
def get? (key : String) : Json String φ → Option (Json String φ)
  | .obj fields => fields.lookup key
  | _ => none

/-- `Value::as_str`. -/
def asStr : Json String φ → Option String
  | .str s => some s
  | _ => none

end Json

end ShmMpsc
