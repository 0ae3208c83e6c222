import Mathlib.Data.List.Induction
import Mathlib.Data.List.Perm.Subperm
import ShmMpsc.System.Park

/-!
# One notification a park

A CAS is won at most once for every `PARKED` store, and every notification belongs to a CAS that
was won. By the time it comes to `unpark` the consumer may be elsewhere.
-/

namespace ShmMpsc

set_option autoImplicit false

variable {ι C W M : Type}

/-! ### What a log says about `consumer_state` -/

def parkedAfter (p : Bool) : SysEvent ι W → Bool
  | .storeState v => v = STATE_PARKED
  | .casState _ true => false
  | _ => p

/-- `consumer_state` is `PARKED` after the log. -/
def parked (log : List (SysEvent ι W)) : Bool := log.foldl parkedAfter false

def betweenAfter (p : Bool) : SysEvent ι W → Bool
  | .storeState v => v = STATE_PARKED
  | _ => p

/-- The consumer's last store of `consumer_state` was `PARKED`. -/
def between (log : List (SysEvent ι W)) : Bool := log.foldl betweenAfter false

/-- The producers that won the CAS, in order. -/
def winners : List (SysEvent ι W) → List ι :=
  List.filterMap fun
    | .casState j true => some j
    | _ => none

/-- How often the consumer has stored `PARKED`. -/
def parks : List (SysEvent ι W) → Nat :=
  List.countP fun
    | .storeState v => v = STATE_PARKED
    | _ => false

def SysEvent.onState : SysEvent ι W → Bool
  | .storeState _ | .casState _ _ => true
  | _ => false

/-- Nobody touches `consumer_state`. -/
def Silent (ev : List (SysEvent ι W)) : Prop := ∀ e ∈ ev, e.onState = false

/-- The CAS is only ever won on `PARKED`. -/
def Flips (log : List (SysEvent ι W)) : Prop :=
  ∀ a j b, log = a ++ .casState j true :: b → parked a = true

section Logs

variable {log ev a mid : List (SysEvent ι W)} {e : SysEvent ι W}

theorem parked_snoc : parked (log ++ [e]) = parkedAfter (parked log) e := by
  simp [parked]

theorem between_snoc : between (log ++ [e]) = betweenAfter (between log) e := by
  simp [between]

@[simp] theorem winners_append : winners (log ++ ev) = winners log ++ winners ev :=
  List.filterMap_append

@[simp] theorem parks_append : parks (log ++ ev) = parks log + parks ev :=
  List.countP_append

theorem Silent.nil : Silent ([] : List (SysEvent ι W)) := by
  rintro _ ⟨⟩

theorem Silent.single (h : e.onState = false) : Silent [e] := by
  intro e' he
  rwa [List.mem_singleton.mp he]

theorem Silent.ring {α : Type} (f : α → RingEvent ι W) (es : List α) :
    Silent (es.map fun e => SysEvent.ring (f e)) := by
  intro e he
  obtain ⟨x, _, rfl⟩ := List.mem_map.mp he
  rfl

theorem Silent.append (h : Silent log) (h' : Silent ev) : Silent (log ++ ev) := by
  intro e he
  rcases List.mem_append.mp he with he | he
  · exact h e he
  · exact h' e he

theorem Silent.parked (h : Silent ev) : parked (log ++ ev) = parked log := by
  induction ev using List.reverseRecOn with
  | nil => rw [List.append_nil]
  | append_singleton ev e ih =>
    have he := h e (by simp)
    rw [← List.append_assoc, parked_snoc, ih fun e' he' => h e' (List.mem_append_left _ he')]
    cases e <;> first | rfl | cases he

theorem Silent.between (h : Silent ev) : between (log ++ ev) = between log := by
  induction ev using List.reverseRecOn with
  | nil => rw [List.append_nil]
  | append_singleton ev e ih =>
    have he := h e (by simp)
    rw [← List.append_assoc, between_snoc, ih fun e' he' => h e' (List.mem_append_left _ he')]
    cases e <;> first | rfl | cases he

theorem Silent.winners (h : Silent ev) : winners ev = [] := by
  refine List.filterMap_eq_nil_iff.mpr fun e he => ?_
  have he := h e he
  cases e <;> first | rfl | cases he

theorem flips_nil : Flips ([] : List (SysEvent ι W)) := by
  intro a j b h
  cases a <;> cases h

theorem Flips.append (h : Flips log)
    (hev : ∀ a j b, ev = a ++ .casState j true :: b → parked (log ++ a) = true) :
    Flips (log ++ ev) := by
  intro a j b heq
  rcases List.append_eq_append_iff.mp heq with ⟨c, rfl, hc⟩ | ⟨c, hc, hb⟩
  · exact hev c j b hc
  · cases c with
    | nil =>
      rw [List.append_nil] at hc
      rw [← hc, ← List.append_nil log]
      exact hev [] j b hb.symm
    | cons x c =>
      cases hb
      exact h a j c hc

theorem Flips.silent (h : Flips log) (hs : Silent ev) : Flips (log ++ ev) := by
  refine h.append fun a j b heq => ?_
  have he := hs (.casState j true) (by simp [heq])
  cases he

theorem Flips.of_append (h : Flips (log ++ ev)) : Flips log := by
  intro a j b heq
  exact h a j (b ++ ev) (by simp [heq])

theorem winners_single_le {p : Bool} (h : ∀ j, e = .casState j true → p = true) :
    (winners [e]).length + (parkedAfter p e).toNat ≤ parks [e] + p.toNat := by
  cases e with
  | storeState v => by_cases hv : v = STATE_PARKED <;> simp [winners, parks, parkedAfter, hv]
  | casState j won =>
    cases won with
    | true =>
      obtain rfl := h j rfl
      rfl
    | false => simp [winners, parks, parkedAfter]
  | _ => simp [winners, parks, parkedAfter]

/-- Every win uses up a `PARKED` store. -/
theorem Flips.winners_le {a mid : List (SysEvent ι W)} (h : Flips (a ++ mid)) :
    (winners mid).length + (parked (a ++ mid)).toNat ≤ parks mid + (parked a).toNat := by
  induction mid using List.reverseRecOn with
  | nil => simp [winners, parks]
  | append_singleton mid e ih =>
    rw [← List.append_assoc] at h ⊢
    have hle := ih h.of_append
    have hone := winners_single_le (p := parked (a ++ mid)) (e := e) fun j he =>
      h (a ++ mid) j [] (by rw [he])
    rw [winners_append, List.length_append, parks_append, parked_snoc]
    omega

theorem between_of_parked (h : parked log = true) : between log = true := by
  induction log using List.reverseRecOn with
  | nil => cases h
  | append_singleton log e ih =>
    rw [parked_snoc] at h
    rw [between_snoc]
    cases e with
    | storeState v => exact h
    | casState j won =>
      cases won with
      | true => cases h
      | false => exact ih h
    | _ => exact ih h

/-- What is `PARKED` was stored, and not touched since. -/
theorem exists_park_of_parked (h : parked log = true) : ∃ c d,
    log = c ++ .storeState STATE_PARKED :: d ∧ (∀ v, .storeState v ∉ d) ∧ winners d = [] := by
  induction log using List.reverseRecOn with
  | nil => cases h
  | append_singleton log e ih =>
    rw [parked_snoc] at h
    have hkeep (he : winners [e] = []) (hv : ∀ v, e ≠ .storeState v) (hp : parked log = true) :
        ∃ c d, log ++ [e] = c ++ .storeState STATE_PARKED :: d ∧ (∀ v, .storeState v ∉ d) ∧
          winners d = [] := by
      obtain ⟨c, d, rfl, hd, hw⟩ := ih hp
      refine ⟨c, d ++ [e], by simp, fun v hmem => ?_, by rw [winners_append, hw, he]; rfl⟩
      rcases List.mem_append.mp hmem with hmem | hmem
      · exact hd v hmem
      · exact hv v (List.mem_singleton.mp hmem).symm
    cases e with
    | storeState v =>
      obtain rfl : v = STATE_PARKED := by simpa [parkedAfter] using h
      exact ⟨log, [], rfl, fun _ => List.not_mem_nil, rfl⟩
    | casState j won =>
      cases won with
      | true => cases h
      | false => exact hkeep rfl (fun _ he => by cases he) h
    | _ => exact hkeep rfl (fun _ he => by cases he) h

theorem count_winners_single [DecidableEq ι] {j : ι} (h : e ≠ .casState j true) :
    (winners [e]).count j = 0 := by
  cases e with
  | casState i won =>
    cases won with
    | true =>
      have hij : i ≠ j := fun hij => h (by rw [hij])
      simp [winners, hij]
    | false => rfl
  | _ => rfl

/-- The win that follows `n` others of the same producer. -/
theorem exists_win [DecidableEq ι] {j : ι} {n : Nat} (h : n < (winners log).count j) :
    ∃ a b, log = a ++ .casState j true :: b ∧ (winners a).count j = n := by
  induction log using List.reverseRecOn with
  | nil => cases h
  | append_singleton log e ih =>
    by_cases hn : n < (winners log).count j
    · obtain ⟨a, b, rfl, ha⟩ := ih hn
      exact ⟨a, b ++ [e], by simp, ha⟩
    · rw [winners_append, List.count_append] at h
      by_cases he : e = .casState j true
      · subst he
        have hone : (winners [SysEvent.casState (W := W) j true]).count j = 1 := by simp [winners]
        exact ⟨log, [], rfl, by omega⟩
      · rw [count_winners_single he] at h
        omega

end Logs

/-! ### What a log says about notifications -/

def signalled : List (SysEvent ι W) → List (ι × W) :=
  List.filterMap fun
    | .signal j seq => some (j, seq)
    | _ => none

/-- The notifications that `serve` has counted. -/
def counted : List (SysEvent ι W) → List (ι × W) :=
  List.filterMap fun
    | .posted j seq => some (j, seq)
    | _ => none

/-- Those that have come to `unpark`. -/
def delivered : List (SysEvent ι W) → List (ι × W) :=
  List.filterMap fun
    | .unpark j seq => some (j, seq)
    | _ => none

def owned [DecidableEq ι] (j : ι) : List (ι × W) → List W :=
  List.filterMap fun x => if x.1 = j then some x.2 else none

section Notes

variable {log ev : List (SysEvent ι W)}

@[simp] theorem signalled_append : signalled (log ++ ev) = signalled log ++ signalled ev :=
  List.filterMap_append

@[simp] theorem counted_append : counted (log ++ ev) = counted log ++ counted ev :=
  List.filterMap_append

@[simp] theorem delivered_append : delivered (log ++ ev) = delivered log ++ delivered ev :=
  List.filterMap_append

@[simp] theorem owned_append [DecidableEq ι] {j : ι} {xs ys : List (ι × W)} :
    owned j (xs ++ ys) = owned j xs ++ owned j ys :=
  List.filterMap_append

theorem count_map_fst [DecidableEq ι] (j : ι) (xs : List (ι × W)) :
    (xs.map Prod.fst).count j = (owned j xs).length := by
  induction xs with
  | nil => rfl
  | cons x xs ih => by_cases hx : x.1 = j <;> simp [owned, hx] at ih ⊢ <;> exact ih

theorem length_le_of_count [DecidableEq ι] {xs : List (ι × W)} {js : List ι}
    (h : ∀ j, (owned j xs).length ≤ js.count j) : xs.length ≤ js.length := by
  have hsub : (xs.map Prod.fst).Subperm js :=
    List.subperm_ext_iff.mpr fun j _ => count_map_fst j xs ▸ h j
  simpa using hsub.length_le

theorem length_le_of_owned [DecidableEq ι] {xs ys : List (ι × W)}
    (h : ∀ j, (owned j xs).length ≤ (owned j ys).length) : xs.length ≤ ys.length := by
  have hle : xs.length ≤ (ys.map Prod.fst).length :=
    length_le_of_count fun j => count_map_fst j ys ▸ h j
  simpa using hle

@[simp] theorem signalled_ring {α : Type} (f : α → RingEvent ι W) (es : List α) :
    signalled (es.map fun e => SysEvent.ring (f e)) = [] := by
  simp [signalled, List.filterMap_map]

@[simp] theorem counted_ring {α : Type} (f : α → RingEvent ι W) (es : List α) :
    counted (es.map fun e => SysEvent.ring (f e)) = [] := by
  simp [counted, List.filterMap_map]

@[simp] theorem delivered_ring {α : Type} (f : α → RingEvent ι W) (es : List α) :
    delivered (es.map fun e => SysEvent.ring (f e)) = [] := by
  simp [delivered, List.filterMap_map]

@[simp] theorem signalling_afterPush (cfg : RingConfig) (scratch : List UInt8) (i : UInt64)
    (push : PushPc W) : (afterPush cfg scratch i push).signalling = false := by
  cases push with
  | done r =>
    cases r with
    | ok pos => rfl
    | error e => cases e <;> rfl
  | _ => rfl

/-- A producer's notifications, from the CAS to `unpark`. -/
structure Relay (p : Producer C W) (wins : Nat) (signals counts unparks : List W) : Prop where
  wins : wins = signals.length + p.pc.signalling.toNat
  sent : ∃ lost, signals = unparks ++ p.socket ++ p.queue ++ lost ∧
    (p.pc.isFailed = false → lost = [])
  counts : counts = unparks ++ if p.counted then p.socket.take 1 else []
  first : p.counted = true → p.socket ≠ []

section Producers

variable [DecidableEq ι] {p p' : Producer C W} {wins : Nat} {signals counts unparks : List W}

theorem Relay.send (h : Relay p wins signals counts unparks) (ht : SendTrans p p') :
    Relay p' wins signals counts unparks := by
  obtain ⟨hq⟩ := ht
  obtain ⟨lost, hsent, hlost⟩ := h.sent
  refine ⟨h.wins, ⟨lost, by simpa [hq] using hsent, hlost⟩, ?_, fun _ => by simp⟩
  rw [h.counts]
  cases hc : p.counted with
  | false => rfl
  | true =>
    obtain ⟨x, xs, hx⟩ := List.exists_cons_of_ne_nil (h.first hc)
    simp [hx]

theorem Relay.serve (h : Relay p wins signals counts unparks) {j : ι} {token token' : Bool}
    {calls calls' : UInt64} (ht : ServeTrans j p token calls p' token' calls' ev) :
    Relay p' wins signals (counts ++ owned j (counted ev)) (unparks ++ owned j (delivered ev)) ∧
      calls' = calls + UInt64.ofNat (counted ev).length := by
  have hcounts := h.counts
  obtain ⟨lost, hsent, hlost⟩ := h.sent
  cases ht with
  | unpark hq hc =>
    rw [hc, hq] at hcounts
    refine ⟨⟨h.wins, ⟨lost, by simpa [hq, delivered, owned] using hsent, hlost⟩, ?_, by rintro ⟨⟩⟩,
      by simp [counted]⟩
    simpa [counted, delivered, owned] using hcounts
  | count hq hc =>
    rw [hc] at hcounts
    refine ⟨⟨h.wins, ⟨lost, by simpa [delivered, owned] using hsent, hlost⟩, ?_,
      fun _ => by simp [hq]⟩,
      rfl⟩
    simp [counted, delivered, owned, hcounts, hq]

theorem Relay.drop (h : Relay p wins signals counts unparks) (hfail : p.pc.isFailed = true) :
    Relay { p with queue := [] } wins signals counts unparks := by
  obtain ⟨lost, hsent, _⟩ := h.sent
  refine ⟨h.wins, ⟨p.queue ++ lost, by simpa using hsent, fun hok => ?_⟩, h.counts, h.first⟩
  rw [hfail] at hok
  cases hok

theorem Relay.producer (h : Relay p wins signals counts unparks) {cfg : RingConfig}
    {codec : Codec C} {ops : SegOps W M} {job : Job} {j : ι} {now : UInt64} {spurious : Bool}
    {push push' : PushPc W} {m m' : M}
    (ht : ProducerTrans cfg codec ops job j now spurious p push m p' push' m' ev) :
    Relay p' (wins + (winners ev).count j) (signals ++ owned j (signalled ev)) counts unparks := by
  have hwins := h.wins
  obtain ⟨lost, hsent, hlost⟩ := h.sent
  have hstay {q : Producer C W} (hq : q.queue = p.queue) (hsock : q.socket = p.socket)
      (hc : q.counted = p.counted) (hp : p.pc.signalling = false) (hfail : p.pc.isFailed = false)
      (hpc : q.pc.signalling = false) (hw : winners ev = []) (hs : signalled ev = []) :
      Relay q (wins + (winners ev).count j) (signals ++ owned j (signalled ev)) counts unparks := by
    rw [hw, hs]
    refine ⟨?_, ⟨[], ?_, fun _ => rfl⟩, by rw [hc, hsock]; exact h.counts,
      by rw [hc, hsock]; exact h.first⟩
    · simpa [hp, hpc, owned] using hwins
    · rw [hq, hsock]
      simpa [owned, hlost hfail] using hsent
  cases ht with
  | encodeErr hpc => exact hstay rfl rfl rfl (by rw [hpc]; rfl) (by rw [hpc]; rfl) rfl rfl rfl
  | encode hpc =>
    exact hstay rfl rfl rfl (by rw [hpc]; rfl) (by rw [hpc]; rfl) (signalling_afterPush ..) rfl rfl
  | finish hpc => exact hstay rfl rfl rfl (by rw [hpc]; rfl) (by rw [hpc]; rfl) rfl rfl rfl
  | push hpc hr =>
    exact hstay rfl rfl rfl (by rw [hpc]; rfl) (by rw [hpc]; rfl) (signalling_afterPush ..)
      (Silent.ring _ _).winners (signalled_ring ..)
  | retry hpc =>
    exact hstay rfl rfl rfl (by rw [hpc]; rfl) (by rw [hpc]; rfl) (signalling_afterPush ..) rfl rfl
  | lost hpc => exact hstay rfl rfl rfl (by rw [hpc]; rfl) (by rw [hpc]; rfl) rfl rfl rfl
  | returned hpc => exact hstay rfl rfl rfl (by rw [hpc]; rfl) (by rw [hpc]; rfl) rfl rfl rfl
  | won hpc =>
    rw [hpc] at hwins hlost
    refine ⟨?_, ⟨[], ?_, fun _ => rfl⟩, h.counts, h.first⟩
    · simpa [winners, signalled, owned, ProducerPc.signalling] using hwins
    · simpa [signalled, owned, hlost rfl] using hsent
  | signal hpc =>
    rw [hpc] at hwins hlost
    refine ⟨?_, ⟨[], ?_, fun _ => rfl⟩, h.counts, h.first⟩
    · simpa [winners, signalled, owned, ProducerPc.signalling] using hwins
    · simp [signalled, owned, hsent, hlost rfl]

end Producers

end Notes

/-! ### What a step does to `consumer_state` -/

/-- The consumer has stored `PARKED` and not `RUNNING` since. -/
def ConsumerPc.parking : ConsumerPc → Bool
  | .recheck | .storeRunningHit | .park | .storeRunning => true
  | _ => false

/-- What `consumer_state` and the consumer have to do with the log. -/
structure Watched (v : Option UInt64) (pc : ConsumerPc) (log : List (SysEvent ι W)) : Prop where
  state : v = some (if parked log then STATE_PARKED else STATE_RUNNING)
  flips : Flips log
  between : between log = pc.parking

section Watch

variable {v : Option UInt64} {pc pc' : ConsumerPc} {log ev : List (SysEvent ι W)}

theorem Watched.silent (h : Watched v pc log) (hs : Silent ev) (hpc : pc'.parking = pc.parking) :
    Watched v pc' (log ++ ev) :=
  ⟨by rw [hs.parked]; exact h.state, h.flips.silent hs, by rw [hs.between, hpc]; exact h.between⟩

theorem Watched.store (h : Watched v pc log) {x : UInt64}
    (hx : x = STATE_PARKED ∨ x = STATE_RUNNING) (hpc : pc'.parking = decide (x = STATE_PARKED)) :
    Watched (some x) pc' (log ++ [.storeState x]) := by
  have hne : STATE_RUNNING ≠ STATE_PARKED := by decide
  refine ⟨?_, h.flips.append fun a j b heq => ?_, ?_⟩
  · rw [parked_snoc]
    rcases hx with rfl | rfl <;> simp [parkedAfter, hne]
  · cases a with
    | nil => cases heq
    | cons x a => cases a <;> cases heq
  · rw [between_snoc, hpc]
    rfl

theorem Watched.parked (h : Watched v pc log) (hv : v = some STATE_PARKED) : parked log = true := by
  have hst := h.state
  rw [hv] at hst
  split at hst
  · assumption
  · cases hst

theorem Watched.won (h : Watched (some STATE_PARKED) pc log) (j : ι) :
    Watched (some STATE_RUNNING) pc (log ++ [.casState j true]) := by
  have hparked := h.parked rfl
  refine ⟨by rw [parked_snoc]; rfl,
    h.flips.append fun a i b heq => ?_, by rw [between_snoc]; exact h.between⟩
  cases a with
  | nil => rwa [List.append_nil]
  | cons x a => cases a <;> cases heq

theorem Watched.lost (h : Watched v pc log) (j : ι) :
    Watched v pc (log ++ [.casState j false]) := by
  refine ⟨by rw [parked_snoc]; exact h.state, h.flips.append fun a i b heq => ?_,
    by rw [between_snoc]; exact h.between⟩
  cases a with
  | nil => cases heq
  | cons x a => cases a <;> cases heq

variable {ops : SegOps W M} {m m' : M}

theorem PushTrans.state (hF : ops.Framed) {spurious : Bool} {push push' : PushPc W}
    {pev : List (PushEvent W)} (hdata : ∀ d, push.data = some d → d.length ≤ ops.maxLen)
    (h : PushTrans ops spurious push m push' m' pev) : ops.loadState m' = ops.loadState m := by
  cases h with
  | won _ hc => exact (hF.casTail hc).state
  | lost _ hc => exact (hF.casTail hc).state
  | writeLen hm => exact (hF.storeLen hm).state
  | writePayload hm => exact (hF.writePayload (hdata _ rfl) hm).state
  | publish hm => exact (hF.storeSeq hm).1
  | _ => rfl

theorem PopTrans.state (hF : ops.Framed) {pop pop' : PopPc W} {pev : List (PopEvent W)}
    (h : PopTrans ops pop m pop' m' pev) : ops.loadState m' = ops.loadState m := by
  cases h with
  | release hm => exact (hF.storeSeq hm).1
  | storeHead hm => exact (hF.storeHead hm).1
  | _ => rfl

theorem ProducerTrans.data_le {cfg : RingConfig} {codec : Codec C} {job : Job} {j : ι}
    {now : UInt64} {spurious : Bool} {p p' : Producer C W} {push push' : PushPc W}
    {data : List UInt8}
    (ht : ProducerTrans cfg codec ops job j now spurious p push m p' push' m' ev)
    (h : ∀ d, push.data = some d → d.length ≤ ops.maxLen) (hd : push'.data = some data) :
    data.length ≤ ops.maxLen := by
  cases ht with
  | push _ hr => exact h data ((pushTrans_of_step hr).data_eq hd)
  | encode => exact pushCall_data hd
  | retry => exact pushCall_data hd
  | _ => exact h data hd

theorem Watched.producer (hF : ops.Framed) {cfg : RingConfig} {codec : Codec C} {job : Job} {j : ι}
    {now : UInt64} {spurious : Bool} {p p' : Producer C W} {push push' : PushPc W}
    (hdata : ∀ d, push.data = some d → d.length ≤ ops.maxLen)
    (ht : ProducerTrans cfg codec ops job j now spurious p push m p' push' m' ev)
    (h : Watched (ops.loadState m) pc log) : Watched (ops.loadState m') pc (log ++ ev) := by
  cases ht with
  | push _ hr =>
    rw [(pushTrans_of_step hr).state hF hdata]
    exact h.silent (Silent.ring _ _) rfl
  | won _ hc =>
    obtain ⟨hst, hst', _⟩ := hF.won hc
    rw [hst] at h
    rw [hst']
    exact h.won j
  | lost _ hc =>
    obtain ⟨rfl, _⟩ := hF.lost hc
    exact h.lost j
  | encode => exact h.silent ((Silent.single rfl).append (Silent.single rfl)) rfl
  | retry => exact h.silent (Silent.single rfl) rfl
  | signal => exact h.silent (Silent.single rfl) rfl
  | encodeErr => exact h.silent Silent.nil rfl
  | finish => exact h.silent Silent.nil rfl
  | returned => exact h.silent Silent.nil rfl

theorem parking_afterPop {hit miss : ConsumerPc} {c : Consumer C} {p : Bool} (pop : PopPc W)
    (hhit : hit.parking = p) (hmiss : miss.parking = p) (hc : c.pc.parking = p) :
    (afterPop hit miss c pop).pc.parking = p := by
  rcases afterPop_pc hit miss c pop with h | h | h
  · rw [h, hhit]
  · rw [h, hmiss]
  · rw [h, hc]

theorem Watched.consumer (hF : ops.Framed) {codec : Codec C} {stop : Bool} {c c' : Consumer C}
    {pop pop' : PopPc W} (ht : ConsumerTrans ι codec ops stop c pop m c' pop' m' ev)
    (h : Watched (ops.loadState m) c.pc log) : Watched (ops.loadState m') c'.pc (log ++ ev) := by
  cases ht with
  | drain hpc hr =>
    rw [hr.state hF]
    refine h.silent (Silent.ring _ _) ?_
    rw [hpc]
    exact parking_afterPop _ rfl (by split <;> rfl) (by rw [hpc])
  | recheck hpc hr =>
    rw [hr.state hF]
    refine h.silent (Silent.ring _ _) ?_
    rw [hpc]
    exact parking_afterPop _ rfl rfl (by rw [hpc])
  | storeParked hpc hm =>
    rw [(hF.storeState hm).1]
    have hstored : Watched (some STATE_PARKED) .recheck (log ++ [.storeState STATE_PARKED]) :=
      h.store (.inl rfl) rfl
    have hcall : Silent [(.ring (.popCall c.buf) : SysEvent ι W)] := Silent.single rfl
    simpa using hstored.silent hcall rfl
  | storeRunningHit hpc hm =>
    rw [(hF.storeState hm).1]
    exact h.store (.inr rfl) rfl
  | storeRunning hpc hm =>
    rw [(hF.storeState hm).1]
    exact h.store (.inr rfl) rfl
  | top hpc => exact h.silent (Silent.single rfl) (by rw [hpc]; rfl)
  | decodeDrain hpc => exact h.silent (Silent.single rfl) (by rw [hpc]; rfl)
  | unparked hpc => exact h.silent (Silent.single rfl) (by rw [hpc]; rfl)
  | halt hpc => exact h.silent Silent.nil (by rw [hpc]; rfl)
  | addEvents hpc => exact h.silent Silent.nil (by rw [hpc]; rfl)
  | addWire hpc => exact h.silent Silent.nil (by rw [hpc]; rfl)
  | decodeRecheck hpc => exact h.silent Silent.nil (by rw [hpc]; rfl)

end Watch

/-! ### Runs -/

section Runs

variable [DecidableEq ι] [DecidableEq W] {cfg : RingConfig} {codec : Codec C} {ops : SegOps W M}
  {jobs : ι → Job} {s s' : System ι C W M} {log ev : List (SysEvent ι W)}

/-- Every producer's notifications. -/
def Relayed (s : System ι C W M) (log : List (SysEvent ι W)) : Prop := ∀ j,
  Relay (s.producer j) ((winners log).count j) (owned j (signalled log)) (owned j (counted log))
    (owned j (delivered log))

structure NotifyInv (ops : SegOps W M) (s : System ι C W M) (log : List (SysEvent ι W)) : Prop where
  data : ∀ j d, (s.ring.push j).data = some d → d.length ≤ ops.maxLen
  watched : Watched (ops.loadState s.ring.mem) s.consumer.pc log
  relay : ∀ j, Relay (s.producer j) ((winners log).count j) (owned j (signalled log))
    (owned j (counted log)) (owned j (delivered log))
  calls : s.postedCalls = UInt64.ofNat (counted log).length

omit [DecidableEq W] in
theorem ProducerTrans.notes {job : Job} {j : ι} {now : UInt64} {spurious : Bool}
    {p p' : Producer C W} {push push' : PushPc W} {m m' : M}
    (ht : ProducerTrans cfg codec ops job j now spurious p push m p' push' m' ev) :
    counted ev = [] ∧ delivered ev = [] ∧
      ∀ k, k ≠ j → (winners ev).count k = 0 ∧ owned k (signalled ev) = [] := by
  cases ht with
  | push =>
    rw [(Silent.ring _ _).winners]
    simp [owned]
  | won => exact ⟨rfl, rfl, fun k hk => ⟨by simp [winners, hk.symm], rfl⟩⟩
  | signal => exact ⟨rfl, rfl, fun k hk => ⟨rfl, by simp [signalled, owned, hk.symm]⟩⟩
  | _ => exact ⟨rfl, rfl, fun _ _ => ⟨rfl, rfl⟩⟩

omit [DecidableEq ι] [DecidableEq W] in
theorem ConsumerTrans.notes {stop : Bool} {c c' : Consumer C} {pop pop' : PopPc W} {m m' : M}
    (ht : ConsumerTrans ι codec ops stop c pop m c' pop' m' ev) :
    winners ev = [] ∧ signalled ev = [] ∧ counted ev = [] ∧ delivered ev = [] := by
  cases ht with
  | drain | recheck =>
    rw [(Silent.ring _ _).winners]
    simp
  | _ => exact ⟨rfl, rfl, rfl, rfl⟩

omit [DecidableEq W] in
theorem ServeTrans.notes {j : ι} {p p' : Producer C W} {token token' : Bool} {calls calls' : UInt64}
    (h : ServeTrans j p token calls p' token' calls' ev) :
    Silent ev ∧ signalled ev = [] ∧
      ∀ k, k ≠ j → owned k (counted ev) = [] ∧ owned k (delivered ev) = [] := by
  cases h with
  | unpark => exact ⟨Silent.single rfl, rfl, fun k hk => ⟨rfl, by simp [delivered, owned, hk.symm]⟩⟩
  | count => exact ⟨Silent.single rfl, rfl, fun k hk => ⟨by simp [counted, owned, hk.symm], rfl⟩⟩

omit [DecidableEq ι] [DecidableEq W] in
theorem ServeTrans.socket {j : ι} {p p' : Producer C W} {token token' : Bool}
    {calls calls' : UInt64} {seq : W}
    (h : ServeTrans j p token calls p' token' calls' [.unpark j seq]) :
    ∃ rest, p.socket = seq :: rest := by
  cases h with
  | unpark hsocket => exact ⟨_, hsocket⟩

omit [DecidableEq ι] [DecidableEq W] in
theorem ServeTrans.token {j : ι} {p p' : Producer C W} {token token' : Bool} {calls calls' : UInt64}
    {seq : W} (h : ServeTrans j p token calls p' token' calls' [.unpark j seq]) :
    token' = true := by
  cases h
  rfl

theorem sysStep_unpark {mm : MemModel ι W M} {j : ι} {seq : W} {rest : List W}
    (hsocket : (s.producer j).socket = seq :: rest) (hc : (s.producer j).counted = true) :
    ∃ s', sysStep cfg codec mm jobs s (.serve j) = some (s', [.unpark j seq]) ∧ s'.token = true ∧
      s'.consumer = s.consumer := by
  have hserve : serveStep j (s.producer j) s.token s.postedCalls =
      some ({ s.producer j with socket := rest, counted := false }, true, s.postedCalls,
        [.unpark j seq]) := by
    simp [serveStep, hsocket, hc]
  exact ⟨_, Option.map_eq_some_iff.mpr ⟨_, hserve, rfl⟩, rfl, rfl⟩

omit [DecidableEq W] in
/-- The other producers' notifications are where they were. -/
theorem Relayed.update (h : Relayed s log) {j : ι} {p : Producer C W}
    (hj : Relay p ((winners (log ++ ev)).count j) (owned j (signalled (log ++ ev)))
      (owned j (counted (log ++ ev))) (owned j (delivered (log ++ ev))))
    (hev : ∀ k, k ≠ j → (winners ev).count k = 0 ∧ owned k (signalled ev) = [] ∧
      owned k (counted ev) = [] ∧ owned k (delivered ev) = [])
    (hs : s'.producer = Function.update s.producer j p) : Relayed s' (log ++ ev) := by
  intro k
  rw [hs]
  by_cases hk : k = j
  · subst hk
    rwa [Function.update_self]
  · obtain ⟨hw, hsig, hc, hd⟩ := hev k hk
    rw [Function.update_of_ne hk]
    simpa [hw, hsig, hc, hd] using h k

omit [DecidableEq W] in
theorem Relayed.update_silent (h : Relayed s log) {j : ι} {p : Producer C W}
    (hj : Relay p ((winners log).count j) (owned j (signalled log)) (owned j (counted log))
      (owned j (delivered log)))
    (hs : s'.producer = Function.update s.producer j p) : Relayed s' (log ++ []) := by
  rw [← List.append_nil log] at hj
  exact h.update hj (fun k hk => ⟨rfl, rfl, rfl, rfl⟩) hs

theorem Relayed.step {mm : MemModel ι W M} (h : Relayed s log) {a : SysAction ι}
    (hs : sysStep cfg codec mm jobs s a = some (s', ev)) : Relayed s' (log ++ ev) := by
  cases sysTrans_of_step hs with
  | @producer j now spurious p push m _ ht =>
    obtain ⟨hc, hd, hothers⟩ := ht.notes
    have hrelay := (h j).producer ht
    refine h.update ?_ (fun k hk => ?_) rfl
    · simpa [hc, hd, owned] using hrelay
    · exact ⟨(hothers k hk).1, (hothers k hk).2, by rw [hc]; rfl, by rw [hd]; rfl⟩
  | @consumer c pop m _ ht =>
    obtain ⟨hw, hsig, hc, hd⟩ := ht.notes
    intro k
    change Relay (s.producer k) _ _ _ _
    simpa [hw, hsig, hc, hd] using h k
  | @send j p hp =>
    exact h.update_silent ((h j).send hp) rfl
  | @serve j p token calls _ hp =>
    obtain ⟨hsil, hsig, hothers⟩ := hp.notes
    refine h.update ?_ (fun k hk => ?_) rfl
    · simpa [hsil.winners, hsig, owned] using ((h j).serve hp).1
    · exact ⟨by rw [hsil.winners]; rfl, by rw [hsig]; rfl, hothers k hk⟩
  | @drop j hfail =>
    exact h.update_silent ((h j).drop hfail) rfl
  | commit | stop =>
    rw [List.append_nil]
    exact h

omit [DecidableEq W] in
theorem relayed_start (m : M) : Relayed (System.start (ι := ι) (W := W) cfg codec m) [] :=
  fun _ => ⟨rfl, ⟨[], rfl, fun _ => rfl⟩, rfl, by rintro ⟨⟩⟩

theorem NotifyInv.step (hF : ops.Framed) (h : NotifyInv ops s log) {a : SysAction ι}
    (hs : sysStep cfg codec (sc ops) jobs s a = some (s', ev)) : NotifyInv ops s' (log ++ ev) := by
  have hnone : log ++ ([] : List (SysEvent ι W)) = log := List.append_nil log
  have hrelay : Relayed s' (log ++ ev) := Relayed.step h.relay hs
  cases sysTrans_of_step hs with
  | @producer j now spurious p push m _ ht =>
    obtain ⟨hc, _, _⟩ := ht.notes
    refine ⟨fun k d hk => ?_, h.watched.producer hF (h.data j) ht, hrelay, ?_⟩
    · by_cases hkj : k = j
      · subst hkj
        simp only [System.setProducer, Function.update_self] at hk
        exact ht.data_le (h.data k) hk
      · simp only [System.setProducer, Function.update_of_ne hkj] at hk
        exact h.data k d hk
    · rw [counted_append, hc, List.append_nil]
      exact h.calls
  | @consumer c pop m _ ht =>
    obtain ⟨_, _, hc, _⟩ := ht.notes
    refine ⟨h.data, h.watched.consumer hF ht, hrelay, ?_⟩
    rw [counted_append, hc, List.append_nil]
    exact h.calls
  | @send j p hp =>
    rw [hnone] at hrelay ⊢
    exact ⟨h.data, h.watched, hrelay, h.calls⟩
  | @serve j p token calls _ hp =>
    obtain ⟨hsil, _, _⟩ := hp.notes
    obtain ⟨_, hcalls⟩ := (h.relay j).serve hp
    refine ⟨h.data, h.watched.silent hsil rfl, hrelay, ?_⟩
    rw [counted_append, List.length_append, UInt64.ofNat_add, ← h.calls]
    exact hcalls
  | @drop j _ =>
    rw [hnone] at hrelay ⊢
    exact ⟨h.data, h.watched, hrelay, h.calls⟩
  | commit hm => cases hm
  | stop =>
    rw [hnone] at hrelay ⊢
    exact ⟨h.data, h.watched, hrelay, h.calls⟩

omit [DecidableEq W] in
theorem NotifyInv.counts_le (h : NotifyInv ops s log) :
    (delivered log).length ≤ (counted log).length ∧ (counted log).length ≤ (signalled log).length ∧
      (signalled log).length ≤ (winners log).length := by
  refine ⟨length_le_of_owned fun j => ?_, length_le_of_owned fun j => ?_,
    length_le_of_count fun j => ?_⟩
  · rw [(h.relay j).counts, List.length_append]
    exact Nat.le_add_right _ _
  · obtain ⟨lost, hsent, _⟩ := (h.relay j).sent
    have htake :
        (if (s.producer j).counted = true then (s.producer j).socket.take 1 else []).length ≤
        (s.producer j).socket.length := by
      split
      · exact List.length_take_le' ..
      · exact Nat.zero_le _
    rw [(h.relay j).counts, hsent]
    simp only [List.length_append]
    omega
  · rw [(h.relay j).wins]
    exact Nat.le_add_right _ _

end Runs

section Segment

open RingConfig

variable [DecidableEq ι] {cfg : RingConfig} {codec : Codec C} {jobs : ι → Job}

theorem notifyInv_start {m m' : Memory} (hm : m.size = cfg.total.toNat) (h : init cfg m = some m') :
    NotifyInv (segOps cfg) (System.start (ι := ι) cfg codec m') [] where
  data := fun _ _ hd => by cases hd
  watched := by
    obtain ⟨_, _, _, hsim⟩ := memSim_init (check_iff.mp (init_eq_some h).1) hm h
    exact ⟨hsim.state, flips_nil, rfl⟩
  relay := relayed_start m'
  calls := rfl

variable {as : List (SysAction ι)} {s s' : System ι C UInt64 Memory}
  {log : List (SysEvent ι UInt64)}

theorem ScRun.notifyInv {G} (h : ScRun cfg codec jobs G as s log) :
    NotifyInv (segOps cfg) s log := by
  obtain ⟨m, m', hm, hi, hrun⟩ := h
  have hF := segOps_framed (check_iff.mp (init_eq_some hi).1) (fits_of_init hm hi)
  exact hrun.invariant (notifyInv_start hm hi) fun _ _ _ _ _ hI _ hs => hI.step hF hs

end Segment

end ShmMpsc
