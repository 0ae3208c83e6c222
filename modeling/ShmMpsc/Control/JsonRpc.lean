import ShmMpsc.Proto.Serde
import ShmMpsc.Ring.Config

/-!
# The JSON-RPC control plane

The messages, what the server does with a line and what the client makes of its answer. A line
is here what `trim_end` leaves of it.
-/

namespace ShmMpsc

set_option autoImplicit false

variable {φ : Type}

structure AttachInfo where
  slots : UInt32
  slotSize : UInt32
  deriving DecidableEq

/-! ### Messages -/

/-- `Request` with `AttachParams`. -/
def attachRequest (name : String) : Json String φ :=
  .obj [("jsonrpc", .str "2.0"), ("id", .num (.ofU64 1)), ("method", .str "attach"),
    ("params", .obj [("name", .str name)])]

def response (id result : Json String φ) : Json String φ :=
  .obj [("jsonrpc", .str "2.0"), ("id", id), ("result", result)]

def errorResponse (id error : Json String φ) : Json String φ :=
  .obj [("jsonrpc", .str "2.0"), ("id", id), ("error", error)]

/-- `ErrorObject` of a method that there is not. -/
def methodNotFound (other : String) : Json String φ :=
  .obj [("code", .num { val := -32601, lower := by decide, upper := by decide }),
    ("message", .str s!"method not found: {other}")]

/-- `AttachResult`. -/
def AttachInfo.serialize (info : AttachInfo) : Json String φ :=
  .obj [("slots", .num (.ofU64 info.slots.toUInt64)),
    ("slotSize", .num (.ofU64 info.slotSize.toUInt64))]

/-- `from_value::<AttachResult>`. -/
def AttachInfo.fromValue (v : Json String φ) : Option AttachInfo :=
  match v.members ["slots", "slotSize"] with
  | some [slots, slotSize] => do return { slots := ← slots.asU32, slotSize := ← slotSize.asU32 }
  | _ => none

structure Incoming (φ : Type) where
  jsonrpc : String
  id : Option (Json String φ)
  method : String
  params : Json String φ

/-- An `Option<Value>`. -/
def Json.asOption : Json Literal φ → Option (Json String φ)
  | .null => none
  | v => some v.toValue

/-- From a map `id` may be missing, and `params` from both forms. -/
def Incoming.deserialize : Json Literal φ → Option (Incoming φ)
  | .obj fields => do
    let jsonrpc ← (Json.fieldOnce "jsonrpc" fields).join
    let id ← Json.fieldOnce "id" fields
    let method ← (Json.fieldOnce "method" fields).join
    let params ← Json.fieldOnce "params" fields
    return { jsonrpc := ← jsonrpc.asString, id := id.bind Json.asOption,
             method := ← method.asString, params := params.elim .null Json.toValue }
  | .arr [jsonrpc, id, method] => do
    return { jsonrpc := ← jsonrpc.asString, id := id.asOption, method := ← method.asString,
             params := .null }
  | .arr [jsonrpc, id, method, params] => do
    return { jsonrpc := ← jsonrpc.asString, id := id.asOption, method := ← method.asString,
             params := params.toValue }
  | _ => none

/-! ### The server -/

/-- What one line makes the server do, with the response that it writes. -/
inductive Handled (φ : Type) where
  | malformed
  | attach (name : String) (resp : Option (Json String φ))
  /-- `posted_calls` goes up by one and the consumer is unparked -/
  | posted
  | unknown (other : String) (resp : Option (Json String φ))

def Handled.resp : Handled φ → Option (Json String φ)
  | .attach _ resp | .unknown _ resp => resp
  | .malformed | .posted => none

namespace JsonServer

/-- The body of `serve`'s loop. -/
def handle (cfg : RingConfig) (msg : Incoming φ) : Handled φ :=
  match msg.method with
  | "attach" =>
    let name := ((msg.params.get? "name").bind Json.asStr).getD "<anon>"
    let result : AttachInfo := { slots := cfg.numSlots.toUInt32, slotSize := cfg.slotSize.toUInt32 }
    .attach name (msg.id.map fun id => response id result.serialize)
  | "posted" => .posted
  | other => .unknown other (msg.id.map fun id => errorResponse id (methodNotFound other))

def line (sj : SerdeJson φ) (cfg : RingConfig) (trimmed : List UInt8) : Handled φ :=
  match (sj.fromSlice trimmed).bind Incoming.deserialize with
  | none => .malformed
  | some msg => handle cfg msg

end JsonServer

/-! ### The client -/

inductive AttachError (φ : Type) where
  /-- `server closed before attach response` -/
  | closed
  /-- an error of `serde_json` -/
  | serde
  /-- `attach failed: {resp}` -/
  | attachFailed (resp : Json String φ)

namespace JsonClient

/-- What `attach` makes of the line it read; `none` is the end of the stream. -/
def readResponse (sj : SerdeJson φ) : Option (List UInt8) → Except (AttachError φ) AttachInfo
  | none => .error .closed
  | some line =>
    match sj.fromSlice line with
    | none => .error .serde
    | some resp =>
      match resp.toValue.get? "result" with
      | none => .error (.attachFailed resp.toValue)
      | some result =>
        match AttachInfo.fromValue result with
        | none => .error .serde
        | some info => .ok info

end JsonClient

/-- `attach` of a client and a server: one line there and one back. -/
def jsonAttach (sj : SerdeJson φ) (cfg : RingConfig) (name : String) : Option AttachInfo := do
  let resp ← (JsonServer.line sj cfg (sj.toWriter (attachRequest name))).resp
  (JsonClient.readResponse sj (some (sj.toWriter resp))).toOption

/-! ### The handshake -/

theorem attachRequest_within (name : String) : (attachRequest name : Json String φ).within 127 := by
  simp [attachRequest, Json.within]

theorem AttachInfo.toValue_serialize (info : AttachInfo) :
    ((info.serialize : Json String φ).map .of).toValue =
      .obj [("slotSize", .num (.ofU64 info.slotSize.toUInt64)),
        ("slots", .num (.ofU64 info.slots.toUInt64))] := by
  simp only [serialize, Json.map, Json.mapFields, Json.toValue, Json.toValueFields]
  simp (disch := decide) only [Json.insertNew_nil, Json.insertNew_gt]

theorem AttachInfo.fromValue_serialize (info : AttachInfo) :
    AttachInfo.fromValue ((info.serialize : Json String φ).map .of).toValue = some info := by
  have hslots := info.slots.toNat_lt
  have hsize := info.slotSize.toNat_lt
  rw [info.toValue_serialize]
  simp [fromValue, Json.members, Json.fieldOnce, Json.asU32, hslots, hsize]

theorem toValue_response (id : Json Literal φ) (result : Json Literal φ) :
    (Json.obj [("jsonrpc", .str (.of "2.0")), ("id", id), ("result", result)]).toValue =
      .obj [("id", id.toValue), ("jsonrpc", .str "2.0"), ("result", result.toValue)] := by
  simp only [Json.toValue, Json.toValueFields, Literal.value_of]
  simp (disch := decide) only [Json.insertNew_nil, Json.insertNew_lt, Json.insertNew_gt]

theorem line_attachRequest {sj : SerdeJson φ} (h : sj.Documented) (cfg : RingConfig)
    (name : String) :
    JsonServer.line sj cfg (sj.toWriter (attachRequest name)) =
      .attach name (some (response (.num (.ofU64 1))
        (AttachInfo.mk cfg.numSlots.toUInt32 cfg.slotSize.toUInt32).serialize)) := by
  simp only [JsonServer.line, h.roundTrip _ (attachRequest_within name), Option.bind_some]
  simp [attachRequest, Json.map, Json.mapFields, Incoming.deserialize, Json.fieldOnce,
    Json.asString, Json.asOption, Json.toValue, Json.toValueFields, Json.insertNew_nil,
    JsonServer.handle, Json.get?, Json.asStr]

theorem readResponse_response {sj : SerdeJson φ} (h : sj.Documented) (info : AttachInfo) :
    JsonClient.readResponse sj (some (sj.toWriter (response (.num (.ofU64 1)) info.serialize))) =
      .ok info := by
  have hwithin : (response (.num (.ofU64 1)) info.serialize : Json String φ).within 127 := by
    simp [response, AttachInfo.serialize, Json.within]
  simp only [JsonClient.readResponse, h.roundTrip _ hwithin]
  have hresult : (((response (.num (.ofU64 1)) info.serialize).map .of).toValue :
      Json String φ).get?
      "result" = some (info.serialize.map .of).toValue := by
    simp only [response, Json.map, Json.mapFields, toValue_response]
    rfl
  simp only [hresult, info.fromValue_serialize]

theorem jsonAttach_eq {sj : SerdeJson φ} (h : sj.Documented) (cfg : RingConfig) (name : String) :
    jsonAttach sj cfg name = some ⟨cfg.numSlots.toUInt32, cfg.slotSize.toUInt32⟩ := by
  simp [jsonAttach, line_attachRequest h, Handled.resp, readResponse_response h, Except.toOption]

end ShmMpsc
