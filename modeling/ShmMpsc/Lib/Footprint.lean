import Mathlib.Logic.Function.Basic
import ShmMpsc.Lib.Memory

/-!
# Footprints

An operation is confined to the addresses `R` when it makes no difference to it whether a byte
elsewhere is changed before it or after it: it neither reads that byte nor writes it.
-/

namespace ShmMpsc

set_option autoImplicit false

namespace Memory

def poke (m : Memory) (x : Nat) (v : UInt8) : Memory :=
  { m with byte := Function.update m.byte x v }

def Confined {β : Type} (R : Nat → Prop) (f : Memory → Option (β × Memory)) : Prop :=
  ∀ m x v, ¬ R x → f (m.poke x v) = (f m).map fun r => (r.1, r.2.poke x v)

/-- `n` bytes from `a`. -/
def Span (a n x : Nat) : Prop := a ≤ x ∧ x < a + n

variable {m m' : Memory} {a b n x : Nat} {v : UInt8} {bs : List UInt8}

@[simp] theorem poke_size (m : Memory) (x : Nat) (v : UInt8) : (m.poke x v).size = m.size := rfl

@[simp] theorem poke_self (m : Memory) (x : Nat) : m.poke x (m.byte x) = m := by
  simp [poke]

theorem poke_byte_self (m : Memory) (x : Nat) (v : UInt8) : (m.poke x v).byte x = v := by
  simp [poke]

theorem poke_byte_of_ne (m : Memory) (v : UInt8) {y : Nat} (h : y ≠ x) :
    (m.poke x v).byte y = m.byte y := by
  simp [poke, h]

theorem read_poke (v : UInt8) (h : ¬ Span a n x) : (m.poke x v).read a n = m.read a n := by
  unfold read
  rw [poke_size]
  congr 2
  apply List.map_congr_left
  intro i hi
  have hi' := List.mem_range.mp hi
  apply poke_byte_of_ne
  rintro rfl
  exact h ⟨Nat.le_add_right a i, Nat.add_lt_add_left hi' a⟩

theorem put_poke (m : Memory) (v : UInt8) (h : ¬ Span a bs.length x) :
    (m.poke x v).put a bs = (m.put a bs).poke x v := by
  have hbyte : ∀ y, ((m.poke x v).put a bs).byte y = ((m.put a bs).poke x v).byte y := by
    intro y
    by_cases hy : Span a bs.length y
    · have hne : y ≠ x := by
        rintro rfl
        exact h hy
      obtain ⟨i, rfl⟩ : ∃ i, y = a + i := ⟨y - a, by have := hy.1; omega⟩
      have hi : i < bs.length := by
        have := hy.2
        omega
      rw [poke_byte_of_ne _ _ hne, put_byte_of_lt _ hi, put_byte_of_lt _ hi]
    · have hout : y < a ∨ a + bs.length ≤ y := by
        unfold Span at hy
        omega
      rw [put_byte_of_disjoint _ hout]
      by_cases hne : y = x
      · rw [hne, poke_byte_self, poke_byte_self]
      · rw [poke_byte_of_ne _ _ hne, poke_byte_of_ne _ _ hne, put_byte_of_disjoint _ hout]
  have hfun : ((m.poke x v).put a bs).byte = ((m.put a bs).poke x v).byte := funext hbyte
  unfold put poke at hfun ⊢
  dsimp only at hfun ⊢
  rw [hfun]

theorem write_poke (m : Memory) (v : UInt8) (h : ¬ Span a bs.length x) :
    (m.poke x v).write a bs = (m.write a bs).map fun m' => m'.poke x v := by
  unfold write
  rw [poke_size]
  split
  · rw [put_poke m v h, Option.map_some]
  · rfl

section Confined

variable {β γ : Type} {R R' : Nat → Prop} {f : Memory → Option (β × Memory)}

theorem Confined.mono (hR : ∀ x, R x → R' x) (h : Confined R f) : Confined R' f :=
  fun m x v hx => h m x v fun hx' => hx (hR x hx')

theorem Confined.congr {g : Memory → Option (β × Memory)} (h : Confined R f)
    (hfg : ∀ m, g m = f m) :
    Confined R g := by
  have hg : g = f := funext hfg
  rwa [hg]

/-- What it writes is inside. -/
theorem Confined.byte_eq (h : Confined R f) {r : β} (hf : f m = some (r, m')) (hx : ¬ R x) :
    m'.byte x = m.byte x := by
  have hcomm := h m x (m.byte x) hx
  rw [poke_self, hf, Option.map_some] at hcomm
  have hm : m' = m'.poke x (m.byte x) := congrArg Prod.snd (Option.some.inj hcomm)
  rw [hm]
  exact poke_byte_self _ _ _

theorem Confined.none : Confined R (fun _ => (none : Option (β × Memory))) := fun _ _ _ _ => rfl

theorem Confined.pure (r : β) : Confined R (fun m => some (r, m)) := fun _ _ _ _ => rfl

theorem Confined.bind {g : β → Memory → Option (γ × Memory)} (hf : Confined R f)
    (hg : ∀ r, Confined R (g r)) : Confined R (fun m => (f m).bind fun r => g r.1 r.2) := by
  intro m x v hx
  dsimp only
  rw [hf m x v hx]
  cases f m with
  | none => rfl
  | some r => exact hg r.1 r.2 x v hx

theorem Confined.map {g : β → γ} (hf : Confined R f) :
    Confined R (fun m => (f m).map fun r => (g r.1, r.2)) := by
  have hmap : (fun m => (f m).map fun r => (g r.1, r.2)) =
      fun m => (f m).bind fun r => some (g r.1, r.2) := by
    funext m
    exact Option.map_eq_bind
  rw [hmap]
  exact hf.bind (g := fun r m => some (g r, m)) fun r => .pure (g r)

theorem confined_read (a n : Nat) :
    Confined (Span a n) (fun m => (m.read a n).map fun bs => (bs, m)) := by
  intro m x v hx
  dsimp only
  rw [read_poke v hx, Option.map_map]
  rfl

theorem confined_write (a : Nat) (bs : List UInt8) :
    Confined (Span a bs.length) (fun m => (m.write a bs).map fun m' => ((), m')) := by
  intro m x v hx
  dsimp only
  rw [write_poke m v hx, Option.map_map, Option.map_map]
  rfl

theorem confined_load64 (a : Nat) :
    Confined (Span a 8) (fun m => (m.load64 a).map fun w => (w, m)) := by
  have h := (confined_read a 8).map (g := fun bs => UInt64.ofNat (ofLE bs))
  simpa only [load64, Option.map_map, Function.comp_def] using h

theorem confined_load32 (a : Nat) :
    Confined (Span a 4) (fun m => (m.load32 a).map fun w => (w, m)) := by
  have h := (confined_read a 4).map (g := fun bs => UInt32.ofNat (ofLE bs))
  simpa only [load32, Option.map_map, Function.comp_def] using h

theorem confined_store64 (a : Nat) (w : UInt64) :
    Confined (Span a 8) (fun m => (m.store64 a w).map fun m' => ((), m')) := by
  have h := confined_write a (toLE 8 w.toNat)
  rwa [toLE_length] at h

theorem confined_store32 (a : Nat) (w : UInt32) :
    Confined (Span a 4) (fun m => (m.store32 a w).map fun m' => ((), m')) := by
  have h := confined_write a (toLE 4 w.toNat)
  rwa [toLE_length] at h

theorem confined_storeAll {addr : Nat → Nat} {val : Nat → UInt64} {is : List Nat}
    (h : ∀ i ∈ is, ∀ x, Span (addr i) 8 x → R x) :
    Confined R (fun m => (storeAll addr val is m).map fun m' => ((), m')) := by
  induction is with
  | nil => exact .pure ()
  | cons i is ih =>
    have hhead := (confined_store64 (addr i) (val i)).mono (h i List.mem_cons_self)
    have htail := ih fun j hj => h j (List.mem_cons_of_mem i hj)
    have hboth := hhead.bind fun _ => htail
    simpa only [storeAll, Option.bind_map, Option.map_bind, Function.comp_def] using hboth

end Confined

end Memory

end ShmMpsc
