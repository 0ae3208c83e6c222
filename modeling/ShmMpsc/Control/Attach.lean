import ShmMpsc.Control.JsonRpc
import ShmMpsc.Ring.Segment

/-!
# Attaching

The geometry goes from the server to a producer as two 32-bit numbers, over either control
plane, and the producer addresses the segment with what it gets.
-/

namespace ShmMpsc

set_option autoImplicit false

open RingConfig

variable {φ : Type}

inductive ControlPlane where
  | capnp
  | jsonrpc

/-- What is used of `capnp-rpc`: a call of a method that the server implements. -/
structure CapnpRpc where
  call : (String → AttachInfo) → String → Option AttachInfo

/-- The caller gets the results that the method set. -/
structure CapnpRpc.Documented (rpc : CapnpRpc) : Prop where
  results : ∀ method name, rpc.call method name = some (method name)

/-- Calls without a network in between. -/
def directRpc : CapnpRpc where
  call := fun method name => some (method name)

theorem directRpc_documented : directRpc.Documented where
  results := fun _ _ => rfl

/-- `ControlImpl::attach`; the name is only logged. -/
def controlImplAttach (cfg : RingConfig) (_name : String) : AttachInfo where
  slots := cfg.numSlots.toUInt32
  slotSize := cfg.slotSize.toUInt32

/-- `CL::attach` with the server at the other end. -/
def attach (sj : SerdeJson φ) (rpc : CapnpRpc) (plane : ControlPlane) (cfg : RingConfig)
    (name : String) : Option AttachInfo :=
  match plane with
  | .capnp => rpc.call (controlImplAttach cfg) name
  | .jsonrpc => jsonAttach sj cfg name

/-- The `RingConfig` that `producer::run` goes on with. -/
def AttachInfo.ringConfig (info : AttachInfo) : RingConfig where
  numSlots := info.slots.toUInt64
  slotSize := info.slotSize.toUInt64

/-- The two sides see one ring, and lengths fit the slot's field. -/
structure Agreement (server producer : RingConfig) : Prop where
  same : producer = server
  slotPtr : ∀ pos, producer.slotPtr pos = server.slotPtr pos
  /-- the segment has the server's `total()` bytes -/
  total : producer.total = server.total
  len : ∀ {data : List UInt8} {pos : UInt64} {m m' : Memory} {spurious : Bool} {pc ev},
    pushCall (segOps producer) data = .loadTail data →
    pushStep (segOps producer) spurious (.writeLen data pos) m = some (pc, m', ev) →
    ∃ len, (segOps producer).loadLen pos m' = some len ∧ len.toNat = data.length

variable {sj : SerdeJson φ} {rpc : CapnpRpc} {cfg : RingConfig} {plane : ControlPlane}
  {name : String}

theorem attach_eq (hj : sj.Documented) (hr : rpc.Documented) :
    attach sj rpc plane cfg name = some ⟨cfg.numSlots.toUInt32, cfg.slotSize.toUInt32⟩ := by
  cases plane with
  | capnp => exact hr.results _ _
  | jsonrpc => exact jsonAttach_eq hj cfg name

theorem toUInt64_toUInt32_iff {x : UInt64} : x.toUInt32.toUInt64 = x ↔ x.toNat < 2 ^ 32 := by
  rw [← UInt64.toNat_inj, UInt32.toNat_toUInt64, UInt64.toNat_toUInt32]
  exact ⟨fun h => h ▸ Nat.mod_lt _ (by decide), Nat.mod_eq_of_lt⟩

/-- With a slot size of 32 bits the stored length is that of the data. -/
theorem loadLen_of_push (hg : cfg.Admitted) (hS : cfg.slotSize.toNat < 2 ^ 32) {data : List UInt8}
    {pos : UInt64} {m m' : Memory} {spurious : Bool} {pc ev}
    (hcall : pushCall (segOps cfg) data = .loadTail data)
    (h : pushStep (segOps cfg) spurious (.writeLen data pos) m = some (pc, m', ev)) :
    ∃ len, (segOps cfg).loadLen pos m' = some len ∧ len.toNat = data.length := by
  have hlen : data.length < 2 ^ 32 := by
    have hmax : (segOps cfg).maxLen = cfg.slotSize.toNat - 20 := maxLen_toNat hg.min
    unfold pushCall at hcall
    split at hcall
    · cases hcall
    · omega
  cases pushTrans_of_step h with
  | writeLen hstore =>
    refine ⟨_, Memory.load32_store32 hstore, ?_⟩
    rw [UInt32.toNat_ofNat', Nat.mod_eq_of_lt hlen]

/-- Server and producer agree exactly on the geometries of 32-bit numbers. -/
theorem geometry_agrees_iff (hc : cfg.check = .ok ()) (hj : sj.Documented)
    (hr : rpc.Documented) :
    (∃ info, attach sj rpc plane cfg name = some info ∧ Agreement cfg info.ringConfig) ↔
      cfg.numSlots.toNat < 2 ^ 32 ∧ cfg.slotSize.toNat < 2 ^ 32 := by
  have hg := check_iff.mp hc
  rw [attach_eq hj hr]
  constructor
  · rintro ⟨info, hinfo, hagree⟩
    cases hinfo
    have hslots := congrArg RingConfig.numSlots hagree.same
    have hsize := congrArg RingConfig.slotSize hagree.same
    exact ⟨toUInt64_toUInt32_iff.mp hslots, toUInt64_toUInt32_iff.mp hsize⟩
  · rintro ⟨hN, hS⟩
    have hsame : AttachInfo.ringConfig ⟨cfg.numSlots.toUInt32, cfg.slotSize.toUInt32⟩ = cfg := by
      rw [AttachInfo.ringConfig, toUInt64_toUInt32_iff.mpr hN, toUInt64_toUInt32_iff.mpr hS]
    refine ⟨_, rfl, ?_⟩
    rw [hsame]
    exact { same := rfl, slotPtr := fun _ => rfl, total := rfl, len := loadLen_of_push hg hS }

theorem geometry_agrees_small : ∃ info,
    attach compactJson directRpc .jsonrpc Presets.SMALL "producer-0" = some info ∧
      Agreement Presets.SMALL info.ringConfig :=
  (geometry_agrees_iff (by decide) compactJson_documented directRpc_documented).mpr (by decide)

/-- A slot of 2^32 + 24 bytes is announced as one of 24, and the second slot of the producer
lies in the first of the server. -/
theorem geometry_narrowed : large.check = .ok () ∧ large.Fits ∧ compactJson.Documented ∧
    ∃ info, attach compactJson directRpc .jsonrpc large "producer-0" = some info ∧
      large.slotPtr 1 = 4294967512 ∧ info.ringConfig.slotPtr 1 = 216 :=
  ⟨by decide, by unfold Fits; decide, compactJson_documented, _,
    attach_eq compactJson_documented directRpc_documented, by decide, by decide⟩

end ShmMpsc
