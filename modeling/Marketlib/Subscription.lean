import Marketlib.Disruptor

/-! The broadcast ring with `subscribe` at any time. `num_consumers_` is not atomic, so a
subscription lies between two publishes; everything else interleaves step by step. An event
carries the number of the publish that brought it, so that two equal events can be told apart;
`joined` and `waits` record what happened and are read by no step. -/

namespace Marketlib
namespace Subscription

open Disruptor (Producer ProducerAction ConsumerAction floor floor_of_commit floor_of_not_commit)

variable {cap : Capacity} {m : ℕ} {τ : Type*}

structure State (cap : Capacity) (m : ℕ) (τ : Type*) where
  ring : Disruptor.State cap m (ℕ × τ)
  numConsumers : ℕ
  inBounds : numConsumers ≤ m
  /-- How many events had been published when a consumer subscribed. -/
  joined : Fin m → ℕ
  /-- The event a consumer had to read next, whenever a publish waited for it. -/
  waits : Fin m → List ℕ

def start : State cap m τ where
  ring := Disruptor.start
  numConsumers := 0
  inBounds := Nat.zero_le m
  joined := fun _ => 0
  waits := fun _ => []

namespace State

def setPublisher (s : State cap m τ) (pc : Producer (ℕ × τ)) : State cap m τ :=
  { s with ring := { s.ring with publisher := pc } }

/-- The consumers that are a full buffer behind when `publish` pauses. -/
def pause (s : State cap m τ) (event : ℕ × τ) (next : Int64) : State cap m τ :=
  { s with
    ring := { s.ring with publisher := .scan event next 0 Int64.maxValue }
    waits := fun c =>
      if c.val < s.numConsumers ∧ cap.signed < next-s.ring.consumers c then
        s.waits c ++ [s.ring.finished c]
      else s.waits c }

def store (s : State cap m τ) (event : ℕ × τ) (next : Int64) : State cap m τ :=
  { s with
    ring := { s.ring with
      slots := Function.update s.ring.slots (cap.slotOf next) (some event)
      publisher := .commit event } }

def commit (s : State cap m τ) (event : ℕ × τ) : State cap m τ :=
  { s with
    ring := { s.ring with
      producer := s.ring.producer+1
      publisher := .idle
      published := s.ring.published ++ [event] } }

end State

inductive Action (m : ℕ) (τ : Type*)
  | subscribe
  | producer (a : ProducerAction τ)
  | consumer (c : Fin m) (a : ConsumerAction)

/-- `subscribe`: the token starts at `0` and the cursor at `-1`, whatever has been published. -/
def subscribe (s : State cap m τ) : Option (State cap m τ) :=
  match s.ring.publisher with
  | .idle =>
    if h : s.numConsumers < m then
      some { s with
        numConsumers := s.numConsumers+1
        inBounds := h
        joined := Function.update s.joined ⟨s.numConsumers,h⟩ s.ring.published.length }
    else none
  | _ => none

/-- `publish`, whose scan ends at `num_consumers_`. -/
def stepProducer (s : State cap m τ) :
    Producer (ℕ × τ) → ProducerAction τ → Option (State cap m τ)
  | .idle, .publish event =>
    some (s.setPublisher
      (.scan (s.ring.published.length,event) (s.ring.producer+1) 0 Int64.maxValue))
  | .scan event next i min, .load =>
    if h : i < s.numConsumers then
      let seq := s.ring.consumers ⟨i,h.trans_le s.inBounds⟩
      some (s.setPublisher (.scan event next (i+1) (if seq < min then seq else min)))
    else none
  | .scan event next i min, .compare =>
    if i < s.numConsumers then none
    else if cap.signed < next-min then some (s.pause event next)
    else some (s.setPublisher (.write event next))
  | .write event next, .write => some (s.store event next)
  | .commit event, .commit => some (s.commit event)
  | _, _ => none

def stepConsumer (s : State cap m τ) (c : Fin m) (a : ConsumerAction) : Option (State cap m τ) :=
  if c.val < s.numConsumers then
    (Disruptor.stepConsumer s.ring c a).map fun ring => { s with ring := ring }
  else none

def step (s : State cap m τ) : Action m τ → Option (State cap m τ)
  | .subscribe => subscribe s
  | .producer a => stepProducer s s.ring.publisher a
  | .consumer c a => stepConsumer s c a

variable {s t : State cap m τ}

theorem subscribe_cases (h : subscribe s = some t) :
    s.ring.publisher = .idle ∧ ∃ h : s.numConsumers < m, t = { s with
      numConsumers := s.numConsumers+1
      inBounds := h
      joined := Function.update s.joined ⟨s.numConsumers,h⟩ s.ring.published.length } := by
  unfold subscribe at h
  split at h
  · next hidle =>
    split_ifs at h with hlt
    exact ⟨hidle,hlt,(Option.some.inj h).symm⟩
  · cases h

theorem stepProducer_cases {a : ProducerAction τ} (h : stepProducer s s.ring.publisher a = some t) :
    (∃ event, a = .publish event ∧ s.ring.publisher = .idle ∧ t = s.setPublisher
      (.scan (s.ring.published.length,event) (s.ring.producer+1) 0 Int64.maxValue)) ∨
    (∃ event next i min, ∃ h : i < s.numConsumers, a = .load ∧
      s.ring.publisher = .scan event next i min ∧ t = s.setPublisher (.scan event next (i+1)
        (if s.ring.consumers ⟨i,h.trans_le s.inBounds⟩ < min then
          s.ring.consumers ⟨i,h.trans_le s.inBounds⟩ else min))) ∨
    (∃ event next i min, a = .compare ∧ s.ring.publisher = .scan event next i min ∧
      s.numConsumers ≤ i ∧ cap.signed < next-min ∧ t = s.pause event next) ∨
    (∃ event next i min, a = .compare ∧ s.ring.publisher = .scan event next i min ∧
      s.numConsumers ≤ i ∧ ¬cap.signed < next-min ∧ t = s.setPublisher (.write event next)) ∨
    (∃ event next, a = .write ∧ s.ring.publisher = .write event next ∧ t = s.store event next) ∨
    ∃ event, a = .commit ∧ s.ring.publisher = .commit event ∧ t = s.commit event := by
  unfold stepProducer at h
  split at h
  · next hp => exact .inl ⟨_,rfl,hp,(Option.some.inj h).symm⟩
  · next hp =>
    split_ifs at h with hi
    exact .inr (.inl ⟨_,_,_,_,hi,rfl,hp,(Option.some.inj h).symm⟩)
  · next hp =>
    split_ifs at h with hi hfull
    · exact .inr (.inr (.inl ⟨_,_,_,_,rfl,hp,not_lt.mp hi,hfull,(Option.some.inj h).symm⟩))
    · exact .inr (.inr (.inr (.inl
        ⟨_,_,_,_,rfl,hp,not_lt.mp hi,hfull,(Option.some.inj h).symm⟩)))
  · next hp => exact .inr (.inr (.inr (.inr (.inl ⟨_,_,rfl,hp,(Option.some.inj h).symm⟩))))
  · next hp => exact .inr (.inr (.inr (.inr (.inr ⟨_,rfl,hp,(Option.some.inj h).symm⟩))))
  · cases h

theorem stepConsumer_cases {c : Fin m} {a : ConsumerAction} (h : stepConsumer s c a = some t) :
    c.val < s.numConsumers ∧ ∃ ring, Disruptor.stepConsumer s.ring c a = some ring ∧
      t = { s with ring := ring } := by
  unfold stepConsumer at h
  split_ifs at h with hc
  obtain ⟨ring,hring,rfl⟩ := Option.map_eq_some_iff.mp h
  exact ⟨hc,ring,hring,rfl⟩

/-! ### Once every consumer has subscribed -/

/-- With all of them subscribed, the ring takes the steps of the ring whose consumers
subscribed before the first publish. -/
theorem step_ring {a : Action m τ} (hall : s.numConsumers = m) (hstep : step s a = some t) :
    t.numConsumers = m ∧ ∃ b, Disruptor.step s.ring b = some t.ring := by
  cases a with
  | subscribe =>
    obtain ⟨-,hlt,-⟩ := subscribe_cases hstep
    omega
  | producer a =>
    rcases stepProducer_cases hstep with ⟨event,rfl,hp,rfl⟩ | ⟨event,next,i,min,hi,rfl,hp,rfl⟩ |
      ⟨event,next,i,min,rfl,hp,hi,hfull,rfl⟩ | ⟨event,next,i,min,rfl,hp,hi,hroom,rfl⟩ |
      ⟨event,next,rfl,hp,rfl⟩ | ⟨event,rfl,hp,rfl⟩
    · exact ⟨hall,.producer (.publish (_,event)),by
        simp [Disruptor.step,hp,Disruptor.stepProducer]; rfl⟩
    · exact ⟨hall,.producer .load,by
        simp [Disruptor.step,hp,Disruptor.stepProducer,hi.trans_le s.inBounds]; rfl⟩
    · exact ⟨hall,.producer .compare,by
        simp [Disruptor.step,hp,Disruptor.stepProducer,not_lt.mpr (hall ▸ hi),hfull]; rfl⟩
    · exact ⟨hall,.producer .compare,by
        simp [Disruptor.step,hp,Disruptor.stepProducer,not_lt.mpr (hall ▸ hi),hroom]; rfl⟩
    · exact ⟨hall,.producer .write,by simp [Disruptor.step,hp,Disruptor.stepProducer]; rfl⟩
    · exact ⟨hall,.producer .commit,by simp [Disruptor.step,hp,Disruptor.stepProducer]; rfl⟩
  | consumer c a =>
    obtain ⟨-,ring,hring,rfl⟩ := stepConsumer_cases hstep
    exact ⟨hall,.consumer c a,hring⟩

theorem run_ring {as : List (Action m τ)} (hall : s.numConsumers = m)
    (hrun : Transition.run step s as = some t) :
    ∃ bs, Transition.run Disruptor.step s.ring bs = some t.ring := by
  induction as generalizing s with
  | nil =>
    cases hrun
    exact ⟨[],rfl⟩
  | cons a as ih =>
    obtain ⟨u,hu,hrun⟩ := Option.bind_eq_some_iff.mp hrun
    obtain ⟨hall',b,hb⟩ := step_ring hall hu
    obtain ⟨bs,hbs⟩ := ih hall' hrun
    exact ⟨b :: bs,by rw [Transition.run_cons,hb]; exact hbs⟩

/-! ### The invariant -/

/-- What the publisher knows: `min` is no larger than the cursors it has loaded, and from the
write on every subscribed consumer is past the slot's old event. -/
def PublisherOk (s : State cap m τ) : Producer (ℕ × τ) → Prop
  | .idle => True
  | .scan event next i min => event.1 = s.ring.published.length ∧
      next.toInt = s.ring.published.length ∧ -1 ≤ min.toInt ∧ i ≤ s.numConsumers ∧
      ∀ c : Fin m, c.val < i → min.toInt < s.ring.finished c
  | .write event next => event.1 = s.ring.published.length ∧
      next.toInt = s.ring.published.length ∧
      ∀ c : Fin m, c.val < s.numConsumers →
        s.ring.published.length < s.ring.finished c+cap.n
  | .commit event => event.1 = s.ring.published.length ∧
      (∀ c : Fin m, c.val < s.numConsumers →
        s.ring.published.length < s.ring.finished c+cap.n) ∧
      ∀ i : Fin cap.n, i.val = s.ring.published.length % cap.n → s.ring.slots i = some event

/-- What consumer `c` has read is what was published at the positions it read. -/
def Faithful (s : State cap m τ) (c : Fin m) : Prop :=
  ∀ o ∈ s.ring.observed c, ∃ h : o.1 < s.ring.published.length, o.2 = some s.ring.published[o.1]

/-- A consumer that subscribed while the first event was in the ring is never more than a
buffer behind; any other is at most as far behind as it was when it subscribed. -/
structure Inv (s : State cap m τ) : Prop where
  cursors : Disruptor.Cursors s.ring
  numbered : ∀ j, ∀ h : j < s.ring.published.length, s.ring.published[j].1 = j
  unsubscribed : ∀ c : Fin m, s.numConsumers ≤ c.val →
    s.ring.finished c = 0 ∧ s.ring.observed c = []
  near : ∀ c : Fin m, c.val < s.numConsumers →
    s.ring.published.length ≤ max (s.ring.finished c+cap.n) (s.joined c)
  publisher : PublisherOk s s.ring.publisher
  slots : ∀ j, ∀ h : j < s.ring.published.length, floor s.ring ≤ j →
    ∀ i : Fin cap.n, i.val = j % cap.n → s.ring.slots i = some s.ring.published[j]
  faithful : ∀ c : Fin m, c.val < s.numConsumers → s.joined c ≤ cap.n → Faithful s c

theorem start_inv : Inv (start : State cap m τ) where
  cursors := Disruptor.start_cursors
  numbered := fun j h => absurd h (Nat.not_lt_zero j)
  unsubscribed := fun _ _ => ⟨rfl,rfl⟩
  near := fun _ _ => Nat.zero_le _
  publisher := trivial
  slots := fun j h => absurd h (Nat.not_lt_zero j)
  faithful := fun c h => absurd h (Nat.not_lt_zero c)

theorem Inv.publisher_at (h : Inv s) {pc : Producer (ℕ × τ)} (hp : s.ring.publisher = pc) :
    PublisherOk s pc :=
  hp ▸ h.publisher

theorem PublisherOk.mono {pc : Producer (ℕ × τ)} (h : PublisherOk s pc)
    (hpublished : t.ring.published = s.ring.published) (hslots : t.ring.slots = s.ring.slots)
    (hnum : t.numConsumers = s.numConsumers)
    (hdone : ∀ c, s.ring.finished c ≤ t.ring.finished c) : PublisherOk t pc := by
  cases pc with
  | idle => trivial
  | scan event next i min =>
    obtain ⟨hnumber,hnext,hmin,hi,hscan⟩ := h
    rw [← hpublished] at hnumber hnext
    refine ⟨hnumber,hnext,hmin,hnum ▸ hi,fun c hc => (hscan c hc).trans_le ?_⟩
    exact_mod_cast hdone c
  | write event next =>
    obtain ⟨hnumber,hnext,hroom⟩ := h
    rw [← hpublished] at hnumber hnext
    refine ⟨hnumber,hnext,fun c hc => ?_⟩
    rw [hpublished]
    exact (hroom c (hnum ▸ hc)).trans_le (Nat.add_le_add_right (hdone c) _)
  | commit event =>
    obtain ⟨hnumber,hroom,hslot⟩ := h
    rw [← hpublished] at hnumber
    rw [← hslots,← hpublished] at hslot
    refine ⟨hnumber,fun c hc => ?_,hslot⟩
    rw [hpublished]
    exact (hroom c (hnum ▸ hc)).trans_le (Nat.add_le_add_right (hdone c) _)

/-- The events that a consumer, subscribed in time, has still to read are in the ring. -/
theorem Inv.floor_le (h : Inv s) {c : Fin m} (hc : c.val < s.numConsumers)
    (hjoined : s.joined c ≤ cap.n) : floor s.ring ≤ s.ring.finished c := by
  have hnear := h.near c hc
  unfold floor
  split
  · next event hp =>
    have := (h.publisher_at hp).2.1 c hc
    omega
  · omega

theorem subscribe_inv (h : Inv s) (hstep : subscribe s = some t) : Inv t := by
  obtain ⟨hidle,hlt,rfl⟩ := subscribe_cases hstep
  have hfresh := h.unsubscribed ⟨s.numConsumers,hlt⟩ le_rfl
  have hcases {c : Fin m} (hc : c.val < s.numConsumers+1) :
      c = ⟨s.numConsumers,hlt⟩ ∨ c ≠ ⟨s.numConsumers,hlt⟩ ∧ c.val < s.numConsumers := by
    by_cases heq : c = ⟨s.numConsumers,hlt⟩
    · exact .inl heq
    · exact .inr ⟨heq,by have := Fin.val_ne_of_ne heq; simp only at this; omega⟩
  refine { h with
    unsubscribed := fun c hc => h.unsubscribed c ((Nat.le_succ _).trans hc)
    near := fun c hc => ?_
    publisher := hidle ▸ trivial
    faithful := fun c hc hjoined => ?_ }
  · rcases hcases hc with rfl | ⟨hne,hold⟩
    · simp
    · simpa only [Function.update_of_ne hne] using h.near c hold
  · rcases hcases hc with rfl | ⟨hne,hold⟩
    · intro o ho
      rw [hfresh.2] at ho
      cases ho
    · exact h.faithful c hold (by simpa only [Function.update_of_ne hne] using hjoined)

theorem stepConsumer_inv {c : Fin m} {a : ConsumerAction} (h : Inv s)
    (hb : s.ring.published.length < 2^63) (hstep : stepConsumer s c a = some t) : Inv t := by
  obtain ⟨hc,ring,hring,rfl⟩ := stepConsumer_cases hstep
  have hcursors := h.cursors.stepConsumer hb hring
  have hother {d : Fin m} (hd : s.numConsumers ≤ d.val) : d ≠ c := by
    rintro rfl
    exact absurd hc (not_lt.mpr hd)
  rcases Disruptor.stepConsumer_cases hring with rfl | ⟨hready,rfl⟩ | ⟨hr,rfl⟩ | ⟨hr,rfl⟩
  · exact h
  · exact { h with
      cursors := hcursors
      publisher := h.publisher.mono rfl rfl rfl fun _ => le_rfl }
  · refine { h with
      cursors := hcursors
      unsubscribed := fun d hd => ?_
      publisher := h.publisher.mono rfl rfl rfl fun _ => le_rfl
      faithful := fun d hd hjoined o ho => ?_ }
    · simpa only [Function.update_of_ne (hother hd)] using h.unsubscribed d hd
    · by_cases hdc : d = c
      · subst hdc
        have hlt := h.cursors.reading d hr
        have hslot := h.slots (s.ring.finished d) hlt (h.floor_le hd hjoined) _
          (cap.slotOf_val (h.cursors.tokens d))
        simp only [Function.update_self,List.mem_append,List.mem_singleton] at ho
        rcases ho with ho | rfl
        · exact h.faithful d hd hjoined o ho
        · exact ⟨hlt,hslot⟩
      · exact h.faithful d hd hjoined o (by simpa [hdc] using ho)
  · have hgrow := Disruptor.le_finished (s := s.ring) c
    refine { h with
      cursors := hcursors
      unsubscribed := fun d hd => ?_
      near := fun d hd =>
        (h.near d hd).trans (max_le_max_right _ (Nat.add_le_add_right (hgrow d) _))
      publisher := h.publisher.mono rfl rfl rfl hgrow }
    simpa only [Function.update_of_ne (hother hd)] using h.unsubscribed d hd

/-- A step inside `publish` that changes nothing but where the publisher is and what `waits`
records. -/
theorem Inv.setPublisher (h : Inv s) {pc : Producer (ℕ × τ)}
    (hring : t.ring = { s.ring with publisher := pc }) (hnum : t.numConsumers = s.numConsumers)
    (hjoined : t.joined = s.joined) (hcommit : ∀ e, s.ring.publisher ≠ .commit e)
    (hcommit' : ∀ e, pc ≠ .commit e) (hpc : PublisherOk s pc) : Inv t := by
  obtain ⟨ring,num,_,joined,_⟩ := t
  obtain rfl := hring
  obtain rfl := hnum
  obtain rfl := hjoined
  refine { h with
    cursors := { h.cursors with }
    publisher := hpc.mono rfl rfl rfl fun _ => le_rfl
    slots := fun j hj hfloor => h.slots j hj ?_ }
  rw [floor_of_not_commit hcommit]
  rwa [floor_of_not_commit hcommit'] at hfloor

/-- The load of one more cursor: the running minimum stays below all that were loaded. -/
theorem Inv.load (h : Inv s) {event : ℕ × τ} {next min : Int64} {i : ℕ} (hi : i < s.numConsumers)
    (hp : s.ring.publisher = .scan event next i min) :
    Inv (s.setPublisher (.scan event next (i+1)
      (if s.ring.consumers ⟨i,hi.trans_le s.inBounds⟩ < min then
        s.ring.consumers ⟨i,hi.trans_le s.inBounds⟩ else min))) := by
  obtain ⟨hnumber,hnext,hmin,-,hscan⟩ := h.publisher_at hp
  have hcursor := h.cursors.consumers ⟨i,hi.trans_le s.inBounds⟩
  refine h.setPublisher rfl rfl rfl (by simp [hp]) (by simp)
    ⟨hnumber,hnext,?_,hi,fun c hc => ?_⟩
  · split_ifs <;> omega
  · rcases Nat.lt_succ_iff_lt_or_eq.mp hc with hlt | heq
    · have hold := hscan c hlt
      split_ifs with hless
      · exact (Int64.lt_iff_toInt_lt.mp hless).trans hold
      · exact hold
    · obtain rfl : c = ⟨i,hi.trans_le s.inBounds⟩ := Fin.ext heq
      split_ifs with hless
      · omega
      · rw [Int64.lt_iff_toInt_lt] at hless
        omega

/-- The write of the slot: the event it held is one that every subscribed consumer is past. -/
theorem Inv.store (h : Inv s) {event : ℕ × τ} {next : Int64}
    (hp : s.ring.publisher = .write event next) : Inv (s.store event next) := by
  obtain ⟨hnumber,hnext,hroom⟩ := h.publisher_at hp
  have hslot := cap.slotOf_val hnext
  refine { h with
    cursors := { h.cursors with }
    publisher := ⟨hnumber,hroom,fun i hi => ?_⟩
    slots := fun j hj hfloor i hi => ?_ }
  · have hi' : i.val = (cap.slotOf next).val := hslot ▸ hi
    simp [State.store,Fin.ext hi']
  · rw [floor_of_commit rfl] at hfloor
    have hj' : j < s.ring.published.length := hj
    have hfloor' : s.ring.published.length+1-cap.n ≤ j := hfloor
    have hne : i ≠ cap.slotOf next := by
      intro heq
      refine mod_ne_of_near (n := cap.n) hj' (by omega) ?_
      rw [← hi,heq,hslot]
    simp only [State.store,Function.update_of_ne hne]
    refine h.slots j hj' ?_ i hi
    rw [floor_of_not_commit (by simp [hp])]
    omega

theorem Inv.commit (h : Inv s) {event : ℕ × τ} (hb : s.ring.published.length+1 < 2^63)
    (hp : s.ring.publisher = .commit event) : Inv (s.commit event) := by
  obtain ⟨hnumber,hroom,hslot⟩ := h.publisher_at hp
  have hlen : (s.ring.published ++ [event]).length = s.ring.published.length+1 := by simp
  have hold : ∀ j, ∀ h : j < s.ring.published.length,
      ∀ h' : j < (s.ring.published ++ [event]).length,
      (s.ring.published ++ [event])[j] = s.ring.published[j] :=
    fun j h _ => List.getElem_append_left h
  refine { h with
    cursors := h.cursors.commit event hb
    numbered := fun j hj => ?_
    near := fun c hc => ?_
    publisher := trivial
    slots := fun j hj hfloor i hi => ?_
    faithful := fun c hc hjoined o ho => ?_ }
  · simp only [State.commit,hlen] at hj
    rcases Nat.lt_succ_iff_lt_or_eq.mp hj with hlt | rfl
    · simpa only [State.commit,hold j hlt] using h.numbered j hlt
    · simpa [State.commit] using hnumber
  · simp only [State.commit,hlen]
    exact le_max_of_le_left (hroom c hc)
  · rw [floor_of_not_commit (by simp [State.commit])] at hfloor
    simp only [State.commit,hlen] at hj hfloor
    rcases Nat.lt_succ_iff_lt_or_eq.mp hj with hlt | rfl
    · simp only [State.commit,hold j hlt]
      exact h.slots j hlt (by rwa [floor_of_commit hp]) i hi
    · simp [State.commit,hslot i hi]
  · obtain ⟨hlt,hvalue⟩ := h.faithful c hc hjoined o ho
    exact ⟨by simp only [State.commit,hlen]; omega,
      by simp only [State.commit,hold o.1 hlt]; exact hvalue⟩

theorem stepProducer_inv {a : ProducerAction τ} (h : Inv s)
    (hb : t.ring.published.length+1 < 2^63)
    (hstep : stepProducer s s.ring.publisher a = some t) : Inv t := by
  have hproducer := h.cursors.producer
  have hcap := cap.addressable
  rcases stepProducer_cases hstep with ⟨event,rfl,hp,rfl⟩ | ⟨event,next,i,min,hi,rfl,hp,rfl⟩ |
    ⟨event,next,i,min,rfl,hp,hi,hfull,rfl⟩ | ⟨event,next,i,min,rfl,hp,hi,hroom,rfl⟩ |
    ⟨event,next,rfl,hp,rfl⟩ | ⟨event,rfl,hp,rfl⟩
  · have hb' : s.ring.published.length+1 < 2^63 := hb
    refine h.setPublisher rfl rfl rfl (by simp [hp]) (by simp)
      ⟨rfl,?_,?_,Nat.zero_le _,fun c hc => absurd hc (Nat.not_lt_zero _)⟩
    · rw [toInt_add_one (by omega),hproducer]
      omega
    · rw [Int64.toInt_maxValue]
      omega
  · exact h.load hi hp
  · obtain ⟨hnumber,hnext,-⟩ := h.publisher_at hp
    refine h.setPublisher rfl rfl rfl (by simp [hp]) (by simp)
      ⟨hnumber,hnext,?_,Nat.zero_le _,fun c hc => absurd hc (Nat.not_lt_zero _)⟩
    rw [Int64.toInt_maxValue]
    omega
  · obtain ⟨hnumber,hnext,hmin,-,hscan⟩ := h.publisher_at hp
    refine h.setPublisher rfl rfl rfl (by simp [hp]) (by simp) ⟨hnumber,hnext,fun c hc => ?_⟩
    have hb' : s.ring.published.length+1 < 2^63 := hb
    have hmax := min.toInt_lt
    have hscan := hscan c (hc.trans_le hi)
    rw [Int64.lt_iff_toInt_lt,cap.signed_toInt,
      toInt_sub_near (by omega) (by omega),hnext] at hroom
    omega
  · exact h.store hp
  · exact h.commit (by simp [State.commit] at hb; omega) hp

/-! ### Every run -/

theorem published_le {a : Action m τ} (hstep : step s a = some t) :
    s.ring.published.length ≤ t.ring.published.length := by
  cases a with
  | subscribe =>
    obtain ⟨-,-,rfl⟩ := subscribe_cases hstep
    exact le_rfl
  | producer a =>
    rcases stepProducer_cases hstep with ⟨_,_,_,rfl⟩ | ⟨_,_,_,_,_,_,_,rfl⟩ | ⟨_,_,_,_,_,_,_,_,rfl⟩ |
      ⟨_,_,_,_,_,_,_,_,rfl⟩ | ⟨_,_,_,_,rfl⟩ | ⟨_,_,_,rfl⟩ <;>
      simp [State.setPublisher,State.pause,State.store,State.commit]
  | consumer c a =>
    obtain ⟨-,ring,hring,rfl⟩ := stepConsumer_cases hstep
    exact Disruptor.published_le (a := .consumer c a) hring

theorem reachable_inv (h : Transition.Reachable step (start : State cap m τ) s)
    (hb : s.ring.published.length+1 < 2^63) : Inv s := by
  refine Transition.ReachableBy.invariant_of_bound
    (fun s => s.ring.published.length+1 < 2^63) start_inv
    (fun s a t hstep ht => (Nat.succ_le_succ (published_le hstep)).trans_lt ht) ?_ h hb
  intro s a t hinv ht _ hstep
  have hle := published_le hstep
  cases a with
  | subscribe => exact subscribe_inv hinv hstep
  | producer a => exact stepProducer_inv hinv ht hstep
  | consumer c a => exact stepConsumer_inv hinv (by omega) hstep

/-! ### A call of `publish` on its own -/

/-- The loads of the scan: the minimum found is no smaller than the smallest cursor. -/
theorem run_loads (event : ℕ × τ) (next : Int64) {low : ℤ} {n i : ℕ} (min : Int64)
    (hn : i+n = s.numConsumers) (hmin : low ≤ min.toInt)
    (hlow : ∀ c : Fin m, c.val < s.numConsumers → low ≤ (s.ring.consumers c).toInt) :
    ∃ min', Transition.run step (s.setPublisher (.scan event next i min))
        (List.replicate n (.producer .load)) =
      some (s.setPublisher (.scan event next s.numConsumers min')) ∧ low ≤ min'.toInt := by
  induction n generalizing i min with
  | zero =>
    obtain rfl : i = s.numConsumers := by omega
    exact ⟨min,rfl,hmin⟩
  | succ n ih =>
    have hi : i < s.numConsumers := by omega
    have hcursor := hlow ⟨i,hi.trans_le s.inBounds⟩ hi
    obtain ⟨min',hrun,hmin'⟩ := ih (i := i+1)
      (if s.ring.consumers ⟨i,hi.trans_le s.inBounds⟩ < min then
        s.ring.consumers ⟨i,hi.trans_le s.inBounds⟩ else min) (by omega)
      (by split_ifs <;> assumption)
    refine ⟨min',?_,hmin'⟩
    rw [List.replicate_succ,Transition.run_cons]
    have hload : step (s.setPublisher (.scan event next i min)) (.producer .load) =
        some (s.setPublisher (.scan event next (i+1)
          (if s.ring.consumers ⟨i,hi.trans_le s.inBounds⟩ < min then
            s.ring.consumers ⟨i,hi.trans_le s.inBounds⟩ else min))) := dif_pos hi
    rw [hload]
    exact hrun

/-- `publish` up to the comparison that ends the scan. -/
def scanCall (n : ℕ) (event : τ) : List (Action m τ) :=
  .producer (.publish event) :: List.replicate n (.producer .load)

theorem run_scanCall (h : Inv s) (hb : s.ring.published.length+1 < 2^63)
    (hidle : s.ring.publisher = .idle) (event : τ) (low : ℤ) (hmax : low ≤ 2^63-1)
    (hlow : ∀ c : Fin m, c.val < s.numConsumers → low ≤ (s.ring.consumers c).toInt) :
    ∃ next min, Transition.run step s (scanCall s.numConsumers event) = some (s.setPublisher
        (.scan (s.ring.published.length,event) next s.numConsumers min)) ∧
      next.toInt = s.ring.published.length ∧ low ≤ min.toInt := by
  have hproducer := h.cursors.producer
  have hnext : (s.ring.producer+1).toInt = s.ring.published.length := by
    rw [toInt_add_one (by omega),hproducer]
    omega
  obtain ⟨min,hrun,hmin⟩ := run_loads (s := s) (s.ring.published.length,event)
    (s.ring.producer+1) Int64.maxValue (Nat.zero_add _) (by rw [Int64.toInt_maxValue]; omega) hlow
  refine ⟨_,min,?_,hnext,hmin⟩
  have hpublish : step s (.producer (.publish event)) = some (s.setPublisher
      (.scan (s.ring.published.length,event) (s.ring.producer+1) 0 Int64.maxValue)) := by
    rw [step,hidle]
    rfl
  rw [scanCall,Transition.run_cons,hpublish]
  exact hrun

/-- While every subscribed consumer is less than a buffer behind, `publish` returns without
a pause. -/
theorem run_publish (h : Inv s) (hb : s.ring.published.length+1 < 2^63)
    (hidle : s.ring.publisher = .idle) (event : τ)
    (hroom : ∀ c : Fin m, c.val < s.numConsumers →
      s.ring.published.length < s.ring.finished c+cap.n) :
    ∃ t, Transition.run step s (scanCall s.numConsumers event ++
        [.producer .compare,.producer .write,.producer .commit]) = some t ∧
      t.ring.publisher = .idle ∧ t.ring.published.length = s.ring.published.length+1 ∧
      t.ring.finished = s.ring.finished ∧ t.ring.reading = s.ring.reading ∧
      t.numConsumers = s.numConsumers ∧ t.joined = s.joined := by
  obtain ⟨next,min,hscan,hnext,hmin⟩ := run_scanCall h hb hidle event
    ((s.ring.published.length : ℤ)-cap.n) (by omega) fun c hc => by
      have := hroom c hc
      rw [h.cursors.consumers]
      omega
  have hpass : ¬cap.signed < next-min := by
    have := min.toInt_lt
    have := cap.addressable
    rw [Int64.lt_iff_toInt_lt,cap.signed_toInt,toInt_sub_near (by omega) (by omega),hnext]
    omega
  have hcompare : step (s.setPublisher (.scan (s.ring.published.length,event) next
      s.numConsumers min)) (.producer .compare) =
      some (s.setPublisher (.write (s.ring.published.length,event) next)) :=
    (if_neg (lt_irrefl _)).trans (if_neg hpass)
  refine ⟨((s.setPublisher (.write (s.ring.published.length,event) next)).store
    (s.ring.published.length,event) next).commit (s.ring.published.length,event),
    Transition.run_trans hscan ?_,rfl,by simp [State.commit,State.store,State.setPublisher],
    rfl,rfl,rfl,rfl⟩
  rw [Transition.run_cons,hcompare]
  rfl

/-- With a subscribed consumer a full buffer behind, `publish` pauses for it. -/
theorem run_pause (h : Transition.Reachable step (start : State cap m τ) s)
    (hb : s.ring.published.length+1 < 2^63) (hidle : s.ring.publisher = .idle) (event : τ)
    {c : Fin m} (hc : c.val < s.numConsumers)
    (hbehind : s.ring.finished c+cap.n ≤ s.ring.published.length) :
    ∃ t, Transition.run step s (scanCall s.numConsumers event ++ [.producer .compare]) = some t ∧
      t.ring.published = s.ring.published ∧ t.numConsumers = s.numConsumers ∧
      t.joined = s.joined ∧ s.ring.finished c ∈ t.waits c := by
  have hinv := reachable_inv h hb
  have hcursor (d : Fin m) := hinv.cursors.consumers d
  obtain ⟨next,min,hscan,hnext,hmin⟩ := run_scanCall hinv hb hidle event (-1) (by omega)
    fun c _ => by
      rw [hcursor]
      omega
  have hloaded := (reachable_inv (h.run hscan) hb).publisher.2.2.2.2 c hc
  have hloaded : min.toInt < s.ring.finished c := hloaded
  have hfull : cap.signed < next-min := by
    rw [Int64.lt_iff_toInt_lt,cap.signed_toInt,toInt_sub_near (by omega) (by omega),hnext]
    omega
  have hlate : cap.signed < next-s.ring.consumers c := by
    have := hcursor c
    rw [Int64.lt_iff_toInt_lt,cap.signed_toInt,toInt_sub_near (by omega) (by omega),hnext]
    omega
  have hcompare : step (s.setPublisher (.scan (s.ring.published.length,event) next
      s.numConsumers min)) (.producer .compare) =
      some ((s.setPublisher (.scan (s.ring.published.length,event) next s.numConsumers min)).pause
        (s.ring.published.length,event) next) :=
    (if_neg (lt_irrefl _)).trans (if_pos hfull)
  have hwaits : (s.pause (s.ring.published.length,event) next).waits c =
      s.waits c ++ [s.ring.finished c] := if_pos ⟨hc,hlate⟩
  refine ⟨s.pause (s.ring.published.length,event) next,Transition.run_trans hscan ?_,rfl,rfl,rfl,
    by simp [hwaits]⟩
  rw [Transition.run_cons,hcompare]
  rfl

/-- Publishing on, as far as the subscribed consumers let it without consuming anything. -/
theorem reach_more (h : Transition.Reachable step (start : State cap m τ) s) (event : τ) {k : ℕ}
    (hidle : s.ring.publisher = .idle) (hb : s.ring.published.length+k+1 < 2^63)
    (hroom : ∀ c : Fin m, c.val < s.numConsumers →
      s.ring.published.length+k ≤ s.ring.finished c+cap.n) :
    ∃ t, Transition.Reachable step (start : State cap m τ) t ∧ t.ring.publisher = .idle ∧
      t.ring.published.length = s.ring.published.length+k ∧
      t.ring.finished = s.ring.finished ∧ t.ring.reading = s.ring.reading ∧
      t.numConsumers = s.numConsumers ∧ t.joined = s.joined := by
  induction k with
  | zero => exact ⟨s,h,hidle,rfl,rfl,rfl,rfl,rfl⟩
  | succ k ih =>
    obtain ⟨t,ht,htidle,hlen,hfinished,hreading,hnum,hjoined⟩ := ih (by omega) fun c hc => by
      have := hroom c hc
      omega
    obtain ⟨u,hrun,huidle,hulen,hufinished,hureading,hunum,hujoined⟩ :=
      run_publish (reachable_inv ht (by omega)) (by omega) htidle event fun c hc => by
        have := hroom c (hnum ▸ hc)
        rw [hlen,hfinished]
        omega
    exact ⟨u,ht.run hrun,huidle,by rw [hulen,hlen,Nat.add_assoc],hufinished.trans hfinished,
      hureading.trans hreading,hunum.trans hnum,hujoined.trans hjoined⟩

/-! ### Late consumers -/

/-- No publish has waited for `c` to read an event that was published before `c` subscribed. -/
def Unhindered (s : State cap m τ) (c : Fin m) : Prop := ∀ k ∈ s.waits c, s.joined c ≤ k

/-- In every run, of every consumer that subscribed when `p` events had been published. -/
def EveryLate (cap : Capacity) (m : ℕ) (τ : Type*) (p : ℕ)
    (good : State cap m τ → Fin m → Prop) : Prop :=
  ∀ as s, Transition.run step (start : State cap m τ) as = some s →
    s.ring.published.length+1 < 2^63 → ∀ c : Fin m, c.val < s.numConsumers → s.joined c = p →
    good s c

variable (cap) in
/-- The first consumer, just subscribed after `p` events. -/
theorem reach_subscribed (hm : 0 < m) (event : τ) {p : ℕ} (hp : p+1 < 2^63) :
    ∃ (s : State cap m τ) (c : Fin m), Transition.Reachable step start s ∧
      s.ring.publisher = .idle ∧ s.ring.published.length = p ∧ c.val < s.numConsumers ∧
      (∀ d : Fin m, d.val < s.numConsumers → d = c) ∧ s.joined c = p ∧
      s.ring.finished c = 0 ∧ s.ring.reading c = false := by
  have hlen₀ : (start : State cap m τ).ring.published.length = 0 := rfl
  have hstart : Transition.Reachable step (start : State cap m τ) start := .start
  obtain ⟨s,hs,hidle,hlen,hfinished,hreading,hnum,-⟩ :=
    reach_more (k := p) hstart event rfl (by omega)
      fun c hc => absurd hc (Nat.not_lt_zero c)
  have hnum : s.numConsumers = 0 := hnum
  have hlt : s.numConsumers < m := hnum ▸ hm
  have hsub : step s .subscribe = some { s with
      numConsumers := s.numConsumers+1
      inBounds := hlt
      joined := Function.update s.joined ⟨s.numConsumers,hlt⟩ s.ring.published.length } := by
    rw [step,subscribe,hidle]
    exact dif_pos hlt
  refine ⟨_,⟨s.numConsumers,hlt⟩,hs.next trivial hsub,hidle,by rw [hlen,hlen₀,Nat.zero_add],
    Nat.lt_succ_self _,fun d hd => Fin.ext ?_,?_,congrFun hfinished _,congrFun hreading _⟩
  · have hd : d.val < s.numConsumers+1 := hd
    change d.val = s.numConsumers
    omega
  · exact (Function.update_self ..).trans (by rw [hlen,hlen₀,Nat.zero_add])

variable (cap) in
/-- A consumer that subscribes after the first event has been overwritten reads another one. -/
theorem exists_unfaithful (hm : 0 < m) (event : τ) {p : ℕ} (hp : p+1 < 2^63) (hlate : cap.n < p) :
    ∃ (s : State cap m τ) (c : Fin m), Transition.Reachable step start s ∧
      s.ring.published.length = p ∧ c.val < s.numConsumers ∧ s.joined c = p ∧ ¬Faithful s c := by
  obtain ⟨s,c,hs,hidle,hlen,hc,-,hjoined,hfinished,hreading⟩ :=
    reach_subscribed cap hm event hp
  have hinv := reachable_inv hs (hlen.symm ▸ hp)
  have hcap := cap.pos
  have htoken : (s.ring.tokens c).toInt = (0 : ℕ) := by rw [hinv.cursors.tokens,hfinished]
  -- slot 0 holds the last event whose position is a multiple of the ring's size
  obtain ⟨j,hj⟩ : ∃ j, j = cap.n*((p-1)/cap.n) := ⟨_,rfl⟩
  have hdiv := Nat.div_add_mod (p-1) cap.n
  have hmod := Nat.mod_lt (p-1) hcap
  have hone : 1 ≤ (p-1)/cap.n := (Nat.one_le_div_iff hcap).mpr (by omega)
  have hle : cap.n ≤ j := hj ▸ Nat.le_mul_of_pos_right _ hone
  have hjlt : j < s.ring.published.length := by omega
  have hfloor : floor s.ring ≤ j := by
    rw [floor_of_not_commit (by simp [hidle])]
    omega
  have hslot := hinv.slots j hjlt hfloor (cap.slotOf (s.ring.tokens c))
    (by rw [cap.slotOf_val htoken,Nat.zero_mod,hj,Nat.mul_mod_right])
  have hready : ¬s.ring.producer < s.ring.tokens c := by
    rw [Int64.lt_iff_toInt_lt,hinv.cursors.producer,htoken,hlen]
    omega
  have hwait : step s (.consumer c .wait) = some { s with ring := { s.ring with
      reading := Function.update s.ring.reading c true } } := by
    simp [step,stepConsumer,Disruptor.stepConsumer,hc,hreading,hready]
  have hlook : step { s with ring := { s.ring with
      reading := Function.update s.ring.reading c true } } (.consumer c .look) =
      some { s with ring := { s.ring with
        reading := Function.update s.ring.reading c true
        observed := Function.update s.ring.observed c
          (s.ring.observed c ++ [(0,some s.ring.published[j])]) } } := by
    simp [step,stepConsumer,Disruptor.stepConsumer,hc,hfinished,hslot]
  refine ⟨_,c,(hs.next trivial hwait).next trivial hlook,hlen,hc,hjoined,fun hfaithful => ?_⟩
  obtain ⟨hlt,hvalue⟩ := hfaithful (0,some s.ring.published[j]) (by simp)
  have hnumber := congrArg Prod.fst (Option.some.inj hvalue)
  simp only [hinv.numbered] at hnumber
  omega

variable (cap) in
/-- A consumer that subscribes after at least one event is waited for, unless it catches up. -/
theorem exists_hindered (hm : 0 < m) (event : τ) {p : ℕ} (hp : p+1 < 2^63) (hpos : 0 < p) :
    ∃ (s : State cap m τ) (c : Fin m), Transition.Reachable step start s ∧
      s.ring.published.length+1 < 2^63 ∧ c.val < s.numConsumers ∧ s.joined c = p ∧
      ¬Unhindered s c := by
  obtain ⟨s,c,hs,hidle,hlen,hc,hall,hjoined,hfinished,-⟩ :=
    reach_subscribed cap hm event hp
  have hcap := cap.addressable
  have hfull : ∃ t : State cap m τ, Transition.Reachable step start t ∧
      t.ring.publisher = .idle ∧ cap.n ≤ t.ring.published.length ∧
      t.ring.published.length+1 < 2^63 ∧ c.val < t.numConsumers ∧ t.joined c = p ∧
      t.ring.finished c = 0 := by
    rcases le_total cap.n p with hle | hle
    · exact ⟨s,hs,hidle,by omega,by omega,hc,hjoined,hfinished⟩
    · obtain ⟨t,ht,htidle,htlen,htfinished,-,htnum,htjoined⟩ :=
        reach_more (k := cap.n-p) hs event hidle (by omega) fun d hd => by
          rw [hall d hd]
          omega
      exact ⟨t,ht,htidle,by omega,by omega,htnum ▸ hc,htjoined ▸ hjoined,htfinished ▸ hfinished⟩
  obtain ⟨t,ht,htidle,htle,htb,htc,htjoined,htfinished⟩ := hfull
  obtain ⟨u,hrun,hpublished,hunum,hujoined,hwaits⟩ :=
    run_pause ht htb htidle event htc (by omega)
  refine ⟨u,c,ht.run hrun,by rw [hpublished]; exact htb,hunum ▸ htc,hujoined ▸ htjoined,
    fun hnever => ?_⟩
  have hle := hnever _ hwaits
  rw [hujoined,htjoined,htfinished] at hle
  omega

/-- What a consumer that subscribes after `p` events reads is what was published at the
positions it reads, in every run, if and only if the first event is then still in the ring; and
no publish waits for it to read older events, in every run, only if there are none. -/
theorem everyLate_iff [Inhabited τ] (hm : 0 < m) {p : ℕ} (hp : p+1 < 2^63) :
    (EveryLate cap m τ p Faithful ↔ p ≤ cap.n) ∧
    (EveryLate cap m τ p (fun s c => Faithful s c ∧ Unhindered s c) ↔ p = 0) := by
  have hreads (hle : p ≤ cap.n) : EveryLate cap m τ p Faithful := fun as s hrun hb c hc hjoined =>
    (reachable_inv (Transition.reachable_iff_run.mpr ⟨as,hrun⟩) hb).faithful c hc (hjoined ▸ hle)
  refine ⟨⟨fun hevery => not_lt.mp fun hlt => ?_,hreads⟩,fun hevery => ?_,?_⟩
  · obtain ⟨s,c,hs,hlen,hc,hjoined,hbad⟩ := exists_unfaithful cap hm (default : τ) hp hlt
    obtain ⟨as,hrun⟩ := Transition.reachable_iff_run.mp hs
    exact hbad (hevery as s hrun (hlen.symm ▸ hp) c hc hjoined)
  · by_contra hne
    obtain ⟨s,c,hs,hb,hc,hjoined,hbad⟩ :=
      exists_hindered cap hm (default : τ) hp (Nat.pos_of_ne_zero hne)
    obtain ⟨as,hrun⟩ := Transition.reachable_iff_run.mp hs
    exact hbad (hevery as s hrun hb c hc hjoined).2
  · rintro rfl as s hrun hb c hc hjoined
    exact ⟨hreads (Nat.zero_le _) as s hrun hb c hc hjoined,fun k _ => hjoined ▸ Nat.zero_le k⟩

theorem everyLate_iff_three :
    (EveryLate Capacity.two 1 ℕ 3 Faithful ↔ 3 ≤ Capacity.two.n) ∧
    (EveryLate Capacity.two 1 ℕ 3 (fun s c => Faithful s c ∧ Unhindered s c) ↔ 3 = 0) :=
  everyLate_iff Nat.one_pos (by decide)

/-- Three events are published, a consumer subscribes and reads, and a fourth is published. -/
def lateRun : List (Action 1 ℕ) :=
  scanCall 0 7 ++ [.producer .compare,.producer .write,.producer .commit] ++
  (scanCall 0 8 ++ [.producer .compare,.producer .write,.producer .commit]) ++
  (scanCall 0 9 ++ [.producer .compare,.producer .write,.producer .commit]) ++
  [.subscribe,.consumer ⟨0,Nat.one_pos⟩ .wait,.consumer ⟨0,Nat.one_pos⟩ .look] ++
  (scanCall 1 10 ++ [.producer .compare])

/-- In a ring of two the third event stands where the late consumer reads its first, and the
fourth publish waits for it to do so. -/
theorem late_consumer_misreads :
    ∃ s : State Capacity.two 1 ℕ, Transition.run step start lateRun = some s ∧
      s.joined 0 = 3 ∧ s.ring.observed 0 = [(0,some (2,9))] ∧ s.waits 0 = [0] ∧
      ¬Faithful s 0 ∧ ¬Unhindered s 0 := by
  obtain ⟨s,hrun,hpublished,hjoined,hobserved,hwaits⟩ : ∃ s : State Capacity.two 1 ℕ,
      Transition.run step start lateRun = some s ∧ s.ring.published = [(0,7),(1,8),(2,9)] ∧
      s.joined 0 = 3 ∧ s.ring.observed 0 = [(0,some (2,9))] ∧ s.waits 0 = [0] :=
    ⟨_,rfl,rfl,rfl,rfl,rfl⟩
  refine ⟨s,hrun,hjoined,hobserved,hwaits,fun h => ?_,fun h => ?_⟩
  · obtain ⟨_,hvalue⟩ := h (0,some (2,9)) (hobserved ▸ List.mem_singleton.mpr rfl)
    simp [hpublished] at hvalue
  · have hle := h 0 (hwaits ▸ List.mem_singleton.mpr rfl)
    omega

end Subscription
end Marketlib
