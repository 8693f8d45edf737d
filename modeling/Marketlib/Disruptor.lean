import Marketlib.RingIndex
import Marketlib.Transition

/-! The broadcast ring: one producer, and consumers that all subscribed before the first
publish. Each load and store of a shared variable is a step; the scan over the consumer
cursors is one load a step. `published`, `finished` and `observed` record what happened and
are read by no step. -/

namespace Marketlib
namespace Disruptor

variable {cap : Capacity} {m : ℕ} {τ : Type*}

/-- Where `publish(event)` is. -/
inductive Producer (τ : Type*)
  | idle
  /-- `min_consumer_seq`: the load of cursor `i` is next, or the comparison when `i = m`. -/
  | scan (event : τ) (next : Int64) (i : ℕ) (min : Int64)
  | write (event : τ) (next : Int64)
  | commit (event : τ)

structure State (cap : Capacity) (m : ℕ) (τ : Type*) where
  producer : Int64
  consumers : Fin m → Int64
  slots : Fin cap.n → Option τ
  publisher : Producer τ
  /-- `tok.next` of each consumer. -/
  tokens : Fin m → Int64
  /-- Between `wait` returning and `consumed`. -/
  reading : Fin m → Bool
  published : List τ
  /-- Calls of `consumed` so far. -/
  finished : Fin m → ℕ
  /-- What each consumer found in its slot, with the number of events it had consumed. -/
  observed : Fin m → List (ℕ × Option τ)

/-- `kInitial` is `-1`. -/
def start : State cap m τ where
  producer := -1
  consumers := fun _ => -1
  slots := fun _ => none
  publisher := .idle
  tokens := fun _ => 0
  reading := fun _ => false
  published := []
  finished := fun _ => 0
  observed := fun _ => []

inductive ProducerAction (τ : Type*)
  | publish (event : τ)
  | load
  | compare
  | write
  | commit

inductive ConsumerAction
  /-- One load of `wait` or `try_consume`. -/
  | wait
  | look
  | consumed

inductive Action (m : ℕ) (τ : Type*)
  | producer (a : ProducerAction τ)
  | consumer (c : Fin m) (a : ConsumerAction)

/-- `publish`: `next_slot`, the write of the slot, `commit`. -/
def stepProducer (s : State cap m τ) :
    Producer τ → ProducerAction τ → Option (State cap m τ)
  | .idle, .publish event =>
    some { s with publisher := .scan event (s.producer+1) 0 Int64.maxValue }
  | .scan event next i min, .load =>
    if h : i < m then
      let seq := s.consumers ⟨i,h⟩
      some { s with publisher := .scan event next (i+1) (if seq < min then seq else min) }
    else none
  | .scan event next i min, .compare =>
    if i < m then none
    else if cap.signed < next-min then
      some { s with publisher := .scan event next 0 Int64.maxValue }
    else some { s with publisher := .write event next }
  | .write event next, .write =>
    some { s with
      slots := Function.update s.slots (cap.slotOf next) (some event)
      publisher := .commit event }
  | .commit event, .commit =>
    some { s with
      producer := s.producer+1
      publisher := .idle
      published := s.published ++ [event] }
  | _, _ => none

def stepConsumer (s : State cap m τ) (c : Fin m) : ConsumerAction → Option (State cap m τ)
  | .wait =>
    if s.reading c then none
    else if s.producer < s.tokens c then some s
    else some { s with reading := Function.update s.reading c true }
  | .look =>
    if s.reading c then
      some { s with
        observed := Function.update s.observed c
          (s.observed c ++ [(s.finished c,s.slots (cap.slotOf (s.tokens c)))]) }
    else none
  | .consumed =>
    if s.reading c then
      some { s with
        consumers := Function.update s.consumers c (s.tokens c)
        tokens := Function.update s.tokens c (s.tokens c+1)
        reading := Function.update s.reading c false
        finished := Function.update s.finished c (s.finished c+1) }
    else none

def step (s : State cap m τ) : Action m τ → Option (State cap m τ)
  | .producer a => stepProducer s s.publisher a
  | .consumer c a => stepConsumer s c a

theorem stepProducer_cases {s t : State cap m τ} {a : ProducerAction τ}
    (h : stepProducer s s.publisher a = some t) :
    (∃ event, s.publisher = .idle ∧
      t = { s with publisher := .scan event (s.producer+1) 0 Int64.maxValue }) ∨
    (∃ event next i min, ∃ h : i < m, s.publisher = .scan event next i min ∧
      t = { s with
        publisher := .scan event next (i+1)
          (if s.consumers ⟨i,h⟩ < min then s.consumers ⟨i,h⟩ else min) }) ∨
    (∃ event next i min, s.publisher = .scan event next i min ∧ cap.signed < next-min ∧
      t = { s with publisher := .scan event next 0 Int64.maxValue }) ∨
    (∃ event next i min, s.publisher = .scan event next i min ∧ m ≤ i ∧
      ¬cap.signed < next-min ∧ t = { s with publisher := .write event next }) ∨
    (∃ event next, s.publisher = .write event next ∧
      t = { s with
        slots := Function.update s.slots (cap.slotOf next) (some event)
        publisher := .commit event }) ∨
    ∃ event, s.publisher = .commit event ∧
      t = { s with
        producer := s.producer+1
        publisher := .idle
        published := s.published ++ [event] } := by
  unfold stepProducer at h
  split at h
  · next hp => exact .inl ⟨_,hp,(Option.some.inj h).symm⟩
  · next hp =>
    split_ifs at h with hi
    exact .inr (.inl ⟨_,_,_,_,hi,hp,(Option.some.inj h).symm⟩)
  · next hp =>
    split_ifs at h with hi hfull
    · exact .inr (.inr (.inl ⟨_,_,_,_,hp,hfull,(Option.some.inj h).symm⟩))
    · exact .inr (.inr (.inr (.inl ⟨_,_,_,_,hp,not_lt.mp hi,hfull,(Option.some.inj h).symm⟩)))
  · next hp => exact .inr (.inr (.inr (.inr (.inl ⟨_,_,hp,(Option.some.inj h).symm⟩))))
  · next hp => exact .inr (.inr (.inr (.inr (.inr ⟨_,hp,(Option.some.inj h).symm⟩))))
  · cases h

theorem stepConsumer_cases {s t : State cap m τ} {c : Fin m} {a : ConsumerAction}
    (h : stepConsumer s c a = some t) :
    t = s ∨
    (¬s.producer < s.tokens c ∧ t = { s with reading := Function.update s.reading c true }) ∨
    (s.reading c = true ∧
      t = { s with
        observed := Function.update s.observed c
          (s.observed c ++ [(s.finished c,s.slots (cap.slotOf (s.tokens c)))]) }) ∨
    (s.reading c = true ∧
      t = { s with
        consumers := Function.update s.consumers c (s.tokens c)
        tokens := Function.update s.tokens c (s.tokens c+1)
        reading := Function.update s.reading c false
        finished := Function.update s.finished c (s.finished c+1) }) := by
  cases a with
  | wait =>
    simp only [stepConsumer] at h
    split_ifs at h with hr hbehind
    · exact .inl (Option.some.inj h).symm
    · exact .inr (.inl ⟨hbehind,(Option.some.inj h).symm⟩)
  | look =>
    simp only [stepConsumer] at h
    split_ifs at h with hr
    exact .inr (.inr (.inl ⟨hr,(Option.some.inj h).symm⟩))
  | consumed =>
    simp only [stepConsumer] at h
    split_ifs at h with hr
    exact .inr (.inr (.inr ⟨hr,(Option.some.inj h).symm⟩))

/-! ### The cursors -/

/-- The shared cursors and the tokens are the counts of what was published and consumed. -/
structure Cursors (s : State cap m τ) : Prop where
  producer : s.producer.toInt = s.published.length-1
  tokens : ∀ c, (s.tokens c).toInt = s.finished c
  consumers : ∀ c, (s.consumers c).toInt = s.finished c-1
  finished_le : ∀ c, s.finished c ≤ s.published.length
  reading : ∀ c, s.reading c = true → s.finished c < s.published.length

theorem start_cursors : Cursors (start : State cap m τ) where
  producer := by simp [start]
  tokens := fun _ => rfl
  consumers := fun _ => by simp [start]
  finished_le := fun _ => le_rfl
  reading := fun _ h => by simp [start] at h

/-- Counting one more event for one consumer. -/
theorem le_finished {s : State cap m τ} (c d : Fin m) :
    s.finished d ≤ Function.update s.finished c (s.finished c+1) d := by
  rcases eq_or_ne d c with rfl | hdc
  · simp
  · simp [hdc]

theorem Cursors.stepConsumer {s t : State cap m τ} {c : Fin m} {a : ConsumerAction}
    (h : Cursors s) (hb : s.published.length < 2^63) (hstep : stepConsumer s c a = some t) :
    Cursors t := by
  rcases stepConsumer_cases hstep with rfl | ⟨hready,rfl⟩ | ⟨hr,rfl⟩ | ⟨hr,rfl⟩
  · exact h
  · have hlt : s.finished c < s.published.length := by
      rw [Int64.lt_iff_toInt_lt,h.producer,h.tokens] at hready
      omega
    refine { h with reading := fun d hd => ?_ }
    by_cases hdc : d = c
    · rwa [hdc]
    · exact h.reading d (by simpa [hdc] using hd)
  · exact { h with }
  · have hlt := h.reading c hr
    have hnext : (s.tokens c+1).toInt = s.finished c+1 := by
      rw [toInt_add_one (by rw [h.tokens]; omega),h.tokens]
    refine { h with
      tokens := fun d => ?_
      consumers := fun d => ?_
      finished_le := fun d => ?_
      reading := fun d hd => ?_ }
    · rcases eq_or_ne d c with rfl | hdc
      · simpa only [Function.update_self,Nat.cast_succ] using hnext
      · simpa only [Function.update_of_ne hdc] using h.tokens d
    · rcases eq_or_ne d c with rfl | hdc
      · simp only [Function.update_self,h.tokens,Nat.cast_succ,add_sub_cancel_right]
      · simpa only [Function.update_of_ne hdc] using h.consumers d
    · rcases eq_or_ne d c with rfl | hdc
      · simp only [Function.update_self]
        exact hlt
      · simpa only [Function.update_of_ne hdc] using h.finished_le d
    · rcases eq_or_ne d c with rfl | hdc
      · simp at hd
      · simp only [Function.update_of_ne hdc] at hd ⊢
        exact h.reading d hd

theorem Cursors.commit {s : State cap m τ} (h : Cursors s) (event : τ)
    (hb : s.published.length+1 < 2^63) :
    Cursors { s with
      producer := s.producer+1
      publisher := .idle
      published := s.published ++ [event] } := by
  refine { h with
    producer := ?_
    finished_le := fun c => (h.finished_le c).trans (by simp)
    reading := fun c hc => (h.reading c hc).trans (by simp) }
  rw [toInt_add_one (by rw [h.producer]; omega),h.producer]
  simp

/-! ### The invariant -/

/-- Positions below this one may have been overwritten already. -/
def floor (s : State cap m τ) : ℕ :=
  match s.publisher with
  | .commit _ => s.published.length+1-cap.n
  | _ => s.published.length-cap.n

theorem floor_of_commit {s : State cap m τ} {event : τ} (h : s.publisher = .commit event) :
    floor s = s.published.length+1-cap.n := by
  rw [floor,h]

theorem floor_of_not_commit {s : State cap m τ} (h : ∀ event, s.publisher ≠ .commit event) :
    floor s = s.published.length-cap.n := by
  unfold floor
  split
  · next event hp => exact absurd hp (h event)
  · rfl

/-- What the publisher knows: `min` bounds the cursors it has loaded, and from the
write on every consumer is past the slot's old event. -/
def PublisherOk (s : State cap m τ) : Producer τ → Prop
  | .idle => True
  | .scan _ next i min => next.toInt = s.published.length ∧
      (s.published.length : ℤ)-1-cap.n ≤ min.toInt ∧
      ∀ c : Fin m, c.val < i → min.toInt < s.finished c
  | .write _ next => next.toInt = s.published.length ∧
      ∀ c, s.published.length < s.finished c+cap.n
  | .commit event => (∀ c, s.published.length < s.finished c+cap.n) ∧
      ∀ i : Fin cap.n, i.val = s.published.length % cap.n → s.slots i = some event

structure Inv (s : State cap m τ) : Prop where
  producer : s.producer.toInt = s.published.length-1
  tokens : ∀ c, (s.tokens c).toInt = s.finished c
  consumers : ∀ c, (s.consumers c).toInt = s.finished c-1
  finished_le : ∀ c, s.finished c ≤ s.published.length
  reading : ∀ c, s.reading c = true → s.finished c < s.published.length
  near : ∀ c, s.published.length ≤ s.finished c+cap.n
  publisher : PublisherOk s s.publisher
  slots : ∀ j, ∀ h : j < s.published.length, floor s ≤ j →
    ∀ i : Fin cap.n, i.val = j % cap.n → s.slots i = some s.published[j]
  observed : ∀ c, ∀ o ∈ s.observed c, ∃ h : o.1 < s.published.length, o.2 = some s.published[o.1]

theorem start_inv : Inv (start : State cap m τ) :=
  { start_cursors with
    near := fun _ => Nat.zero_le _
    publisher := trivial
    slots := fun j h => absurd h (Nat.not_lt_zero j)
    observed := fun _ o ho => by simp [start] at ho }

variable {s t : State cap m τ}

theorem Inv.cursors (h : Inv s) : Cursors s := { h with }

theorem Inv.publisher_at (h : Inv s) {pc : Producer τ} (hp : s.publisher = pc) : PublisherOk s pc :=
  hp ▸ h.publisher

theorem PublisherOk.mono {pc : Producer τ} (h : PublisherOk s pc)
    (hpublished : t.published = s.published) (hslots : t.slots = s.slots)
    (hdone : ∀ c, s.finished c ≤ t.finished c) : PublisherOk t pc := by
  cases pc with
  | idle => trivial
  | scan event next i min =>
    obtain ⟨hnext,hmin,hscan⟩ := h
    rw [← hpublished] at hnext hmin
    refine ⟨hnext,hmin,fun c hc => (hscan c hc).trans_le ?_⟩
    exact_mod_cast hdone c
  | write event next =>
    obtain ⟨hnext,hroom⟩ := h
    rw [← hpublished] at hnext
    refine ⟨hnext,fun c => ?_⟩
    rw [hpublished]
    exact (hroom c).trans_le (Nat.add_le_add_right (hdone c) _)
  | commit event =>
    obtain ⟨hroom,hslot⟩ := h
    rw [← hslots] at hslot
    refine ⟨fun c => ?_,by rwa [hpublished]⟩
    rw [hpublished]
    exact (hroom c).trans_le (Nat.add_le_add_right (hdone c) _)

/-- The events a consumer has still to read are in the ring. -/
theorem Inv.floor_le (h : Inv s) (c : Fin m) : floor s ≤ s.finished c := by
  have hnear := h.near c
  unfold floor
  split
  · next event hp =>
    have := (h.publisher_at hp).1 c
    omega
  · omega

theorem stepConsumer_inv {c : Fin m} {a : ConsumerAction} (h : Inv s)
    (hb : s.published.length < 2^63) (hstep : stepConsumer s c a = some t) : Inv t := by
  have hcursors := h.cursors.stepConsumer hb hstep
  rcases stepConsumer_cases hstep with rfl | ⟨hready,rfl⟩ | ⟨hr,rfl⟩ | ⟨hr,rfl⟩
  · exact h
  · exact { hcursors,h with
      publisher := h.publisher.mono rfl rfl fun _ => le_rfl }
  · have hlt := h.reading c hr
    have hslot := h.slots (s.finished c) hlt (h.floor_le c) _ (cap.slotOf_val (h.tokens c))
    refine { hcursors,h with
      observed := fun d o ho => ?_
      publisher := h.publisher.mono rfl rfl fun _ => le_rfl }
    by_cases hdc : d = c
    · subst hdc
      simp only [Function.update_self,List.mem_append,List.mem_singleton] at ho
      rcases ho with ho | rfl
      · exact h.observed d o ho
      · exact ⟨hlt,hslot⟩
    · exact h.observed d o (by simpa [hdc] using ho)
  · exact { hcursors,h with
      near := fun d => (h.near d).trans (Nat.add_le_add_right (le_finished c d) _)
      publisher := h.publisher.mono rfl rfl (le_finished c) }

/-- A step inside `publish` that changes nothing but where the publisher is. -/
theorem Inv.setPublisher (h : Inv s) {pc : Producer τ} (hcommit : ∀ e, s.publisher ≠ .commit e)
    (hcommit' : ∀ e, pc ≠ .commit e) (hpc : PublisherOk s pc) : Inv { s with publisher := pc } := by
  refine { h with
    publisher := hpc.mono rfl rfl fun _ => le_rfl
    slots := fun j hj hfloor => h.slots j hj ?_ }
  rw [floor_of_not_commit hcommit]
  rwa [floor_of_not_commit hcommit'] at hfloor

/-- The load of one more cursor: the running minimum stays below all that were loaded. -/
theorem Inv.load (h : Inv s) {event : τ} {next min : Int64} {i : ℕ} (hi : i < m)
    (hp : s.publisher = .scan event next i min) :
    Inv { s with
      publisher := .scan event next (i+1)
        (if s.consumers ⟨i,hi⟩ < min then s.consumers ⟨i,hi⟩ else min) } := by
  obtain ⟨hnext,hmin,hscan⟩ := h.publisher_at hp
  have hcursor := h.consumers ⟨i,hi⟩
  refine h.setPublisher (by simp [hp]) (by simp) ⟨hnext,?_,fun c hc => ?_⟩
  · split_ifs
    · have := h.near ⟨i,hi⟩
      omega
    · exact hmin
  · rcases Nat.lt_succ_iff_lt_or_eq.mp hc with hlt | heq
    · have hold := hscan c hlt
      split_ifs with hless
      · exact (Int64.lt_iff_toInt_lt.mp hless).trans hold
      · exact hold
    · obtain rfl : c = ⟨i,hi⟩ := Fin.ext heq
      split_ifs with hless
      · omega
      · rw [Int64.lt_iff_toInt_lt] at hless
        omega

/-- The write of the slot: the event it held is one that every consumer is past. -/
theorem Inv.write (h : Inv s) {event : τ} {next : Int64} (hp : s.publisher = .write event next) :
    Inv { s with
      slots := Function.update s.slots (cap.slotOf next) (some event)
      publisher := .commit event } := by
  obtain ⟨hnext,hroom⟩ := h.publisher_at hp
  have hslot := cap.slotOf_val hnext
  refine { h with
    publisher := ⟨hroom,fun i hi => ?_⟩
    slots := fun j hj hfloor i hi => ?_ }
  · rw [← hslot] at hi
    simp [Fin.ext hi]
  · rw [floor_of_commit rfl] at hfloor
    have hne : i ≠ cap.slotOf next := by
      intro heq
      have hj' : j < s.published.length := hj
      have hfloor' : s.published.length+1-cap.n ≤ j := hfloor
      refine mod_ne_of_near (n := cap.n) hj' (by omega) ?_
      rw [← hi,heq,hslot]
    simp only [Function.update_of_ne hne]
    refine h.slots j hj ?_ i hi
    rw [floor_of_not_commit (by simp [hp])]
    simp only at hfloor
    omega

theorem Inv.commit (h : Inv s) {event : τ} (hb : s.published.length+1 < 2^63)
    (hp : s.publisher = .commit event) :
    Inv { s with
      producer := s.producer+1
      publisher := .idle
      published := s.published ++ [event] } := by
  obtain ⟨hroom,hslot⟩ := h.publisher_at hp
  have hlen : (s.published ++ [event]).length = s.published.length+1 := by simp
  have hold : ∀ j, ∀ h : j < s.published.length, ∀ h' : j < (s.published ++ [event]).length,
      (s.published ++ [event])[j] = s.published[j] :=
    fun j h _ => List.getElem_append_left h
  refine { h.cursors.commit event hb,h with
    near := fun c => by rw [hlen]; exact hroom c
    publisher := trivial
    slots := fun j hj hfloor i hi => ?_
    observed := fun c o ho => ?_ }
  · rw [floor_of_not_commit (by simp)] at hfloor
    simp only [hlen] at hj hfloor
    rcases Nat.lt_succ_iff_lt_or_eq.mp hj with hlt | rfl
    · simp only [hold j hlt]
      exact h.slots j hlt (by rwa [floor_of_commit hp]) i hi
    · simp [hslot i hi]
  · obtain ⟨hlt,hvalue⟩ := h.observed c o ho
    exact ⟨by simp only [hlen]; omega,by simp only [hold o.1 hlt]; exact hvalue⟩

theorem stepProducer_inv {a : ProducerAction τ} (h : Inv s) (hb : t.published.length < 2^63)
    (hstep : stepProducer s s.publisher a = some t) : Inv t := by
  have hcap := cap.addressable
  rcases stepProducer_cases hstep with ⟨event,hp,rfl⟩ | ⟨event,next,i,min,hi,hp,rfl⟩ |
    ⟨event,next,i,min,hp,hfull,rfl⟩ | ⟨event,next,i,min,hp,hi,hroom,rfl⟩ |
    ⟨event,next,hp,rfl⟩ | ⟨event,hp,rfl⟩
  · have hb' : s.published.length < 2^63 := hb
    refine h.setPublisher (by simp [hp]) (by simp) ⟨?_,?_,fun c hc => absurd hc (Nat.not_lt_zero _)⟩
    · rw [toInt_add_one (by rw [h.producer]; omega),h.producer]
      omega
    · rw [Int64.toInt_maxValue]
      omega
  · exact h.load hi hp
  · obtain ⟨hnext,hmin,hscan⟩ := h.publisher_at hp
    refine h.setPublisher (by simp [hp]) (by simp)
      ⟨hnext,?_,fun c hc => absurd hc (Nat.not_lt_zero _)⟩
    rw [Int64.toInt_maxValue]
    have hb' : s.published.length < 2^63 := hb
    omega
  · obtain ⟨hnext,hmin,hscan⟩ := h.publisher_at hp
    refine h.setPublisher (by simp [hp]) (by simp) ⟨hnext,fun c => ?_⟩
    have hb' : s.published.length < 2^63 := hb
    have hmax := min.toInt_lt
    have hscan := hscan c (c.isLt.trans_le hi)
    rw [Int64.lt_iff_toInt_lt,cap.signed_toInt,
      toInt_sub_near (by omega) (by omega),hnext] at hroom
    omega
  · exact h.write hp
  · exact h.commit (by simpa using hb) hp

/-! ### Every run -/

theorem published_le {a : Action m τ} (hstep : step s a = some t) :
    s.published.length ≤ t.published.length := by
  cases a with
  | producer a =>
    rcases stepProducer_cases hstep with ⟨_,_,rfl⟩ | ⟨_,_,_,_,_,_,rfl⟩ | ⟨_,_,_,_,_,_,rfl⟩ |
      ⟨_,_,_,_,_,_,_,rfl⟩ | ⟨_,_,_,rfl⟩ | ⟨_,_,rfl⟩ <;> simp
  | consumer c a =>
    rcases stepConsumer_cases hstep with rfl | ⟨_,rfl⟩ | ⟨_,rfl⟩ | ⟨_,rfl⟩ <;> simp

theorem reachable_inv (h : Transition.Reachable step (start : State cap m τ) s)
    (hb : s.published.length < 2^63) : Inv s := by
  refine Transition.ReachableBy.invariant_of_bound (fun s => s.published.length < 2^63)
    start_inv (fun s a t hstep ht => (published_le hstep).trans_lt ht) ?_ h hb
  intro s a t hinv ht _ hstep
  cases a with
  | producer a => exact stepProducer_inv hinv ht hstep
  | consumer c a => exact stepConsumer_inv hinv ((published_le hstep).trans_lt ht) hstep

/-- With fewer than `2^63` events published, the `k`-th event a consumer finds in its
slot is the `k`-th published one, and the producer never writes a slot that a consumer
is reading. -/
theorem run_broadcasts {as : List (Action m τ)}
    (hrun : Transition.run step (start : State cap m τ) as = some s)
    (hb : s.published.length < 2^63) :
    (∀ c, ∀ o ∈ s.observed c, ∃ h : o.1 < s.published.length, o.2 = some s.published[o.1]) ∧
    ∀ event next, s.publisher = .write event next →
      ∀ c, s.reading c = true → cap.slotOf next ≠ cap.slotOf (s.tokens c) := by
  have hinv := reachable_inv (Transition.reachable_iff_run.mpr ⟨as,hrun⟩) hb
  refine ⟨hinv.observed,fun event next hp c hc heq => ?_⟩
  obtain ⟨hnext,hroom⟩ := hinv.publisher_at hp
  refine mod_ne_of_near (hinv.reading c hc) (hroom c) ?_
  rw [← cap.slotOf_val (hinv.tokens c),← cap.slotOf_val hnext,heq]

/-- One consumer reads while the next event is about to be written. -/
def overlapped : List (Action 2 ℕ) :=
  [.producer (.publish 7),.producer .load,.producer .load,.producer .compare,.producer .write,
    .producer .commit,.consumer 0 .wait,.consumer 0 .look,.producer (.publish 8),.producer .load,
    .producer .load,.producer .compare]

theorem run_broadcasts_overlapped :
    ∃ s : State Capacity.two 2 ℕ, Transition.run step start overlapped = some s ∧
      (∀ c, ∀ o ∈ s.observed c, ∃ h : o.1 < s.published.length, o.2 = some s.published[o.1]) ∧
      ∀ event next, s.publisher = .write event next →
        ∀ c, s.reading c = true →
          Capacity.two.slotOf next ≠ Capacity.two.slotOf (s.tokens c) := by
  obtain ⟨s,hrun,hpublished⟩ : ∃ s : State Capacity.two 2 ℕ,
      Transition.run step start overlapped = some s ∧ s.published.length = 1 := ⟨_,rfl,rfl⟩
  exact ⟨s,hrun,run_broadcasts hrun (by omega)⟩

/-- The state after `r` laps, in each of which one event is published and consumed. -/
def lapped (r : ℕ) : State Capacity.two 1 Unit where
  producer := Int64.ofNat r-1
  consumers := fun _ => Int64.ofNat r-1
  slots := fun i => if i.val < r then some () else none
  publisher := .idle
  tokens := fun _ => Int64.ofNat r
  reading := fun _ => false
  published := List.replicate r ()
  finished := fun _ => r
  observed := fun _ => []

def lap : List (Action 1 Unit) :=
  [.producer (.publish ()),.producer .load,.producer .compare,.producer .write,.producer .commit,
    .consumer 0 .wait,.consumer 0 .consumed]

theorem run_lap {r : ℕ} (h : r < 2^63) :
    Transition.run step (lapped r) lap = some (lapped (r+1)) := by
  have hnext : Int64.ofNat r-1+1 = Int64.ofNat r := Int64.sub_add_cancel _ _
  have hmin : (if Int64.ofNat r-1 < Int64.maxValue then Int64.ofNat r-1 else Int64.maxValue) =
      Int64.ofNat r-1 := by
    split_ifs with hlt
    · rfl
    · rw [Int64.lt_iff_toInt_lt] at hlt
      apply Int64.toInt_inj.mp
      have := (Int64.ofNat r-1).toInt_lt
      rw [Int64.toInt_maxValue] at hlt ⊢
      omega
  have hroom : ¬Capacity.two.signed < Int64.ofNat r-(Int64.ofNat r-1) := by
    rw [show Int64.ofNat r-(Int64.ofNat r-1) = 1 by grind]
    decide
  have hsucc : Int64.ofNat (r+1) = Int64.ofNat r+1 := Int64.ofNat_add r 1
  have hslots : Function.update (lapped r).slots (Capacity.two.slotOf (Int64.ofNat r)) (some ()) =
      (lapped (r+1)).slots := by
    have hval : (Capacity.two.slotOf (Int64.ofNat r)).val = r % 2 :=
      Capacity.two.slotOf_val (Int64.toInt_ofNat_of_lt h)
    funext i
    have hi : i.val < 2 := i.isLt
    rcases eq_or_ne i (Capacity.two.slotOf (Int64.ofNat r)) with rfl | hne
    · rw [Function.update_self]
      simp only [lapped,hval]
      rw [if_pos (by omega)]
    · have hne' : i.val ≠ r % 2 := fun h => hne (Fin.ext (h.trans hval.symm))
      rw [Function.update_of_ne hne]
      simp only [lapped]
      split_ifs <;> first | rfl | omega
  have hload : step { lapped r with publisher := .scan () (Int64.ofNat r-1+1) 0 Int64.maxValue }
      (.producer .load) =
      some { lapped r with publisher := .scan () (Int64.ofNat r) 1 (Int64.ofNat r-1) } := by
    rw [hnext,← hmin]
    rfl
  have hcompare : step { lapped r with publisher := .scan () (Int64.ofNat r) 1 (Int64.ofNat r-1) }
      (.producer .compare) = some { lapped r with publisher := .write () (Int64.ofNat r) } := by
    simp [step,stepProducer,hroom]
  have hwrite : step { lapped r with publisher := .write () (Int64.ofNat r) } (.producer .write) =
      some { lapped r with slots := (lapped (r+1)).slots, publisher := .commit () } := by
    rw [← hslots]
    rfl
  have hcommit : step { lapped r with slots := (lapped (r+1)).slots, publisher := .commit () }
      (.producer .commit) = some { lapped r with
        producer := Int64.ofNat r
        slots := (lapped (r+1)).slots
        published := List.replicate (r+1) () } := by
    simp [step,stepProducer,lapped,hnext,List.replicate_succ']
  have hwait : step { lapped r with
        producer := Int64.ofNat r
        slots := (lapped (r+1)).slots
        published := List.replicate (r+1) () } (.consumer 0 .wait) = some { lapped r with
        producer := Int64.ofNat r
        slots := (lapped (r+1)).slots
        published := List.replicate (r+1) ()
        reading := fun _ => true } := by
    simp [step,stepConsumer,lapped,Function.update_eq_const_of_subsingleton]
    rfl
  have hconsumed : step { lapped r with
        producer := Int64.ofNat r
        slots := (lapped (r+1)).slots
        published := List.replicate (r+1) ()
        reading := fun _ => true } (.consumer 0 .consumed) = some (lapped (r+1)) := by
    simp [step,stepConsumer,lapped,hsucc]
    exact ⟨Function.update_eq_const_of_subsingleton _ _ _,
      Function.update_eq_const_of_subsingleton _ _ _,
      Function.update_eq_const_of_subsingleton _ _ _,
      Function.update_eq_const_of_subsingleton _ _ _⟩
  have hpublish : step (lapped r) (.producer (.publish ())) =
      some { lapped r with publisher := .scan () (Int64.ofNat r-1+1) 0 Int64.maxValue } := rfl
  simp only [lap,Transition.run_cons,hpublish,hload,hcompare,hwrite,hcommit,hwait,hconsumed,
    Option.bind_some,Transition.run_nil]

def laps (r : ℕ) : List (Action 1 Unit) := (List.replicate r lap).flatten

theorem run_laps {r : ℕ} (h : r ≤ 2^63) : Transition.run step start (laps r) = some (lapped r) := by
  induction r with
  | zero =>
    have hstart : (start : State Capacity.two 1 Unit) = lapped 0 := by
      simp [start,lapped]
    rw [hstart]
    rfl
  | succ r ih =>
    have hlaps : laps (r+1) = laps r ++ lap := by
      simp [laps,List.replicate_succ']
    rw [hlaps]
    exact Transition.run_trans (ih (by omega)) (run_lap (by omega))

/-- A consumer whose wrapped token is below the producer's cursor does not wait. -/
theorem run_overrun {r : ℕ} (hwrap : ¬Int64.ofNat r-1 < Int64.ofNat r)
    (hslot : (Capacity.two.slotOf (Int64.ofNat r)).val < r) :
    ∃ s, Transition.run step (lapped r) [.consumer 0 .wait,.consumer 0 .look] = some s ∧
      s.published.length = r ∧ s.observed 0 = [(r,some ())] := by
  refine ⟨{ lapped r with
      reading := Function.update (lapped r).reading 0 true
      observed := Function.update (lapped r).observed 0 [(r,some ())] },?_,?_,?_⟩
  · simp [step,stepConsumer,lapped,hwrap,hslot]
  · simp [lapped]
  · simp

/-- After `2^63` events the token has wrapped, and the consumer is given a slot although
it has consumed everything published. -/
theorem wrapped_token_overruns :
    ∃ s : State Capacity.two 1 Unit,
      Transition.run step start (laps (2^63) ++ [.consumer 0 .wait,.consumer 0 .look]) = some s ∧
      s.published.length = 2^63 ∧ s.observed 0 = [(2^63,some ())] := by
  obtain ⟨s,hrun,hs⟩ := run_overrun (r := 2^63) (by decide) (by decide)
  exact ⟨s,Transition.run_trans (run_laps le_rfl) hrun,hs⟩

end Disruptor
end Marketlib
