import Marketlib.Transition
import Marketlib.TryPush

/-! The queue with one producer and one consumer. Both counters run freely and wrap; the
producer compares their unsigned difference with `N`, the consumer tests them for equality.
One atomic access a step, with the local code after it. `pushes`, `pops`, `refusals` and
`misses` record what happened and are read by no step. -/

namespace Marketlib
namespace SpscQueue

variable {cap : Capacity} {τ : Type*}

/-- Where the producer is in `try_push`; the comment names the access that is next. -/
inductive Pusher (τ : Type*)
  | idle
  /-- `head = producer_.value.load()`. -/
  | loadHead (v : τ)
  /-- `tail = consumer_.value.load()`, and the test of `head - tail >= N`. -/
  | loadTail (v : τ) (head : UInt64)
  /-- `construct_at` begins. -/
  | construct (v : τ) (head : UInt64)
  /-- `construct_at` ends. -/
  | constructing (v : τ) (head : UInt64)
  /-- `producer_.value.store(head + 1)`. -/
  | publish (v : τ) (head : UInt64)
  | returned (ok : Bool)

/-- Where the consumer is in `try_pop`; the comment names the access that is next. -/
inductive Popper (τ : Type*)
  | idle
  /-- `tail = consumer_.value.load()`. -/
  | loadTail
  /-- `head = producer_.value.load()`, and the test of `head == tail`. -/
  | loadHead (tail : UInt64)
  /-- `out = std::move(*ptr)`. -/
  | move (tail : UInt64)
  /-- `std::destroy_at(ptr)`. -/
  | destroy (tail : UInt64) (out : τ)
  /-- `consumer_.value.store(tail + 1)`. -/
  | release (tail : UInt64) (out : τ)
  | returned (out : Option τ)

structure State (cap : Capacity) (τ : Type*) where
  producer : UInt64
  consumer : UInt64
  storage : Fin cap.n → Storage τ
  pusher : Pusher τ
  popper : Popper τ
  /-- The values of the successful `try_push`es. -/
  pushes : List τ
  /-- The values of the successful `try_pop`s. -/
  pops : List τ
  /-- For each `try_push` that returned false, how many values were in the queue when it
  loaded the consumer counter. -/
  refusals : List ℕ
  /-- For each `try_pop` that returned false, how many values were in the queue when it
  loaded the producer counter. -/
  misses : List ℕ

def start : State cap τ where
  producer := 0
  consumer := 0
  storage := fun _ => .raw
  pusher := .idle
  popper := .idle
  pushes := []
  pops := []
  refusals := []
  misses := []

/-- How many values are pushed and not popped. -/
def State.present (s : State cap τ) : ℕ := s.pushes.length-s.pops.length

inductive Action (τ : Type*)
  | callPush (v : τ)
  | push
  | callPop
  | pop

/-- `try_push`. -/
def tryPush (s : State cap τ) : Pusher τ → Option (State cap τ)
  | .loadHead v => some { s with pusher := .loadTail v s.producer }
  | .loadTail v head =>
    if UInt64.ofNat cap.n ≤ head-s.consumer then some { s with
      pusher := .returned false
      refusals := s.refusals ++ [s.present] }
    else some { s with pusher := .construct v head }
  | .construct v head => some { s with
      storage := Function.update s.storage (cap.slot head) .constructing
      pusher := .constructing v head }
  | .constructing v head => some { s with
      storage := Function.update s.storage (cap.slot head) (.live v)
      pusher := .publish v head }
  | .publish v head => some { s with
      producer := head+1
      pusher := .returned true
      pushes := s.pushes ++ [v] }
  | _ => none

/-- `try_pop`. Moving from bytes that hold no object has no successor. -/
def tryPop (s : State cap τ) : Popper τ → Option (State cap τ)
  | .loadTail => some { s with popper := .loadHead s.consumer }
  | .loadHead tail =>
    if s.producer = tail then some { s with
      popper := .returned none
      misses := s.misses ++ [s.present] }
    else some { s with popper := .move tail }
  | .move tail =>
    match s.storage (cap.slot tail) with
    | .live v => some { s with
        storage := Function.update s.storage (cap.slot tail) .moved
        popper := .destroy tail v }
    | _ => none
  | .destroy tail out => some { s with
      storage := Function.update s.storage (cap.slot tail) .raw
      popper := .release tail out }
  | .release tail out => some { s with
      consumer := tail+1
      popper := .returned (some out)
      pops := s.pops ++ [out] }
  | _ => none

def step (s : State cap τ) : Action τ → Option (State cap τ)
  | .callPush v =>
    match s.pusher with
    | .idle => some { s with pusher := .loadHead v }
    | .returned _ => some { s with pusher := .loadHead v }
    | _ => none
  | .push => tryPush s s.pusher
  | .callPop =>
    match s.popper with
    | .idle => some { s with popper := .loadTail }
    | .returned _ => some { s with popper := .loadTail }
    | _ => none
  | .pop => tryPop s s.popper

theorem tryPush_cases {s t : State cap τ} (h : tryPush s s.pusher = some t) :
    (∃ v, s.pusher = .loadHead v ∧ t = { s with pusher := .loadTail v s.producer }) ∨
    (∃ v head, s.pusher = .loadTail v head ∧ UInt64.ofNat cap.n ≤ head-s.consumer ∧
      t = { s with
        pusher := .returned false
        refusals := s.refusals ++ [s.present] }) ∨
    (∃ v head, s.pusher = .loadTail v head ∧ ¬UInt64.ofNat cap.n ≤ head-s.consumer ∧
      t = { s with pusher := .construct v head }) ∨
    (∃ v head, s.pusher = .construct v head ∧
      t = { s with
        storage := Function.update s.storage (cap.slot head) .constructing
        pusher := .constructing v head }) ∨
    (∃ v head, s.pusher = .constructing v head ∧
      t = { s with
        storage := Function.update s.storage (cap.slot head) (.live v)
        pusher := .publish v head }) ∨
    ∃ v head, s.pusher = .publish v head ∧
      t = { s with
        producer := head+1
        pusher := .returned true
        pushes := s.pushes ++ [v] } := by
  unfold tryPush at h
  split at h
  · next v hs => exact .inl ⟨v,hs,(Option.some.inj h).symm⟩
  · next v head hs =>
    split_ifs at h with hfull
    · exact .inr (.inl ⟨v,head,hs,hfull,(Option.some.inj h).symm⟩)
    · exact .inr (.inr (.inl ⟨v,head,hs,hfull,(Option.some.inj h).symm⟩))
  · next v head hs => exact .inr (.inr (.inr (.inl ⟨v,head,hs,(Option.some.inj h).symm⟩)))
  · next v head hs => exact .inr (.inr (.inr (.inr (.inl ⟨v,head,hs,(Option.some.inj h).symm⟩))))
  · next v head hs => exact .inr (.inr (.inr (.inr (.inr ⟨v,head,hs,(Option.some.inj h).symm⟩))))
  · cases h

theorem tryPop_cases {s t : State cap τ} (h : tryPop s s.popper = some t) :
    (s.popper = .loadTail ∧ t = { s with popper := .loadHead s.consumer }) ∨
    (∃ tail, s.popper = .loadHead tail ∧ s.producer = tail ∧
      t = { s with
        popper := .returned none
        misses := s.misses ++ [s.present] }) ∨
    (∃ tail, s.popper = .loadHead tail ∧ s.producer ≠ tail ∧
      t = { s with popper := .move tail }) ∨
    (∃ tail v, s.popper = .move tail ∧ s.storage (cap.slot tail) = .live v ∧
      t = { s with
        storage := Function.update s.storage (cap.slot tail) .moved
        popper := .destroy tail v }) ∨
    (∃ tail out, s.popper = .destroy tail out ∧
      t = { s with
        storage := Function.update s.storage (cap.slot tail) .raw
        popper := .release tail out }) ∨
    ∃ tail out, s.popper = .release tail out ∧
      t = { s with
        consumer := tail+1
        popper := .returned (some out)
        pops := s.pops ++ [out] } := by
  unfold tryPop at h
  split at h
  · next hs => exact .inl ⟨hs,(Option.some.inj h).symm⟩
  · next tail hs =>
    split_ifs at h with hempty
    · exact .inr (.inl ⟨tail,hs,hempty,(Option.some.inj h).symm⟩)
    · exact .inr (.inr (.inl ⟨tail,hs,hempty,(Option.some.inj h).symm⟩))
  · next tail hs =>
    split at h
    · next v hv => exact .inr (.inr (.inr (.inl ⟨tail,v,hs,hv,(Option.some.inj h).symm⟩)))
    · cases h
  · next tail out hs => exact .inr (.inr (.inr (.inr (.inl ⟨tail,out,hs,(Option.some.inj h).symm⟩))))
  · next tail out hs => exact .inr (.inr (.inr (.inr (.inr ⟨tail,out,hs,(Option.some.inj h).symm⟩))))
  · cases h

/-- A call starts where the last one ended. -/
theorem callPush_cases {s t : State cap τ} {v : τ} (h : step s (.callPush v) = some t) :
    (s.pusher = .idle ∨ ∃ ok, s.pusher = .returned ok) ∧ t = { s with pusher := .loadHead v } := by
  simp only [step] at h
  split at h
  · next hs => exact ⟨.inl hs,(Option.some.inj h).symm⟩
  · next ok hs => exact ⟨.inr ⟨ok,hs⟩,(Option.some.inj h).symm⟩
  · cases h

theorem callPop_cases {s t : State cap τ} (h : step s .callPop = some t) :
    (s.popper = .idle ∨ ∃ out, s.popper = .returned out) ∧ t = { s with popper := .loadTail } := by
  simp only [step] at h
  split at h
  · next hs => exact ⟨.inl hs,(Option.some.inj h).symm⟩
  · next out hs => exact ⟨.inr ⟨out,hs⟩,(Option.some.inj h).symm⟩
  · cases h

/-! ### The invariant -/

/-- What the producer has made of the slot after the last value. -/
def Pusher.bytes : Pusher τ → Storage τ
  | .constructing _ _ => .constructing
  | .publish v _ => .live v
  | _ => .raw

/-- What the consumer has left of the oldest value, once it has taken it. -/
def Popper.bytes : Popper τ → Option (Storage τ)
  | .destroy _ _ => some .moved
  | .release _ _ => some .raw
  | _ => none

/-- What the slot of position `p` holds, for the `N` positions from the oldest value on,
once `popped` values are popped. -/
def bytes (pushes : List τ) (popped : ℕ) (pusher : Pusher τ) (popper : Popper τ) (p : ℕ) :
    Storage τ :=
  match pushes[p]? with
  | some v => if p = popped then popper.bytes.getD (.live v) else .live v
  | none => if p = pushes.length then pusher.bytes else .raw

/-- The producer's position is its counter, and it writes only where there is room. -/
def PushOk (s : State cap τ) : Pusher τ → Prop
  | .loadTail _ head => head = s.producer
  | .construct _ head => head = s.producer ∧ s.pushes.length < s.pops.length+cap.n
  | .constructing _ head => head = s.producer ∧ s.pushes.length < s.pops.length+cap.n
  | .publish _ head => head = s.producer ∧ s.pushes.length < s.pops.length+cap.n
  | _ => True

def PopOk (s : State cap τ) : Popper τ → Prop
  | .loadHead tail => tail = s.consumer
  | .move tail => tail = s.consumer ∧ s.pops.length < s.pushes.length
  | .destroy tail out => tail = s.consumer ∧ s.pushes[s.pops.length]? = some out
  | .release tail out => tail = s.consumer ∧ s.pushes[s.pops.length]? = some out
  | _ => True

structure Inv (s : State cap τ) : Prop where
  producer : s.producer = UInt64.ofNat s.pushes.length
  consumer : s.consumer = UInt64.ofNat s.pops.length
  fifo : s.pops <+: s.pushes
  bounded : s.pushes.length ≤ s.pops.length+cap.n
  storage : ∀ p, s.pops.length ≤ p → p < s.pops.length+cap.n →
    s.storage (cap.slot (UInt64.ofNat p)) =
      bytes s.pushes s.pops.length s.pusher s.popper p
  pusher : PushOk s s.pusher
  popper : PopOk s s.popper
  refusals : ∀ k ∈ s.refusals, k = cap.n
  misses : ∀ k ∈ s.misses, k = 0

theorem start_inv : Inv (start : State cap τ) where
  producer := rfl
  consumer := rfl
  fifo := List.prefix_rfl
  bounded := Nat.zero_le _
  storage := fun p _ _ => (ite_self _).symm
  pusher := trivial
  popper := trivial
  refusals := by simp [start]
  misses := by simp [start]

/-- Positions less than a round apart are in different slots, also across the wrap. -/
theorem slot_ne {base p q : ℕ} (hp : base ≤ p ∧ p < base+cap.n) (hq : base ≤ q ∧ q < base+cap.n)
    (hne : p ≠ q) : cap.slot (UInt64.ofNat p) ≠ cap.slot (UInt64.ofNat q) := by
  intro heq
  have hmod := congrArg Fin.val heq
  rw [cap.slot_ofNat,cap.slot_ofNat] at hmod
  rcases Nat.lt_or_gt_of_ne hne with hlt | hlt
  · exact mod_ne_of_near hlt (by omega) hmod
  · exact mod_ne_of_near hlt (by omega) hmod.symm

section Steps

variable {s t : State cap τ}

/-- The unsigned difference of the counters is the number of values present. -/
theorem Inv.difference (h : Inv s) : s.producer-s.consumer = UInt64.ofNat s.present := by
  rw [h.producer,h.consumer]
  exact (UInt64.ofNat_sub h.fifo.length_le).symm

theorem Inv.present_le (h : Inv s) : s.present ≤ cap.n := by
  have := h.bounded
  rw [State.present]
  omega

theorem Inv.full_iff (h : Inv s) :
    UInt64.ofNat cap.n ≤ s.producer-s.consumer ↔ s.present = cap.n := by
  have hle := h.present_le
  have hword := cap.addressable
  rw [h.difference,UInt64.le_iff_toNat_le,UInt64.toNat_ofNat_of_lt' (show cap.n < 2^64 by omega),
    UInt64.toNat_ofNat_of_lt' (show s.present < 2^64 by omega)]
  omega

theorem Inv.empty_iff (h : Inv s) : s.producer = s.consumer ↔ s.present = 0 := by
  have hle := h.present_le
  have hword := cap.addressable
  rw [← sub_eq_zero,h.difference,← UInt64.toNat_inj,
    UInt64.toNat_ofNat_of_lt' (show s.present < 2^64 by omega)]
  rfl

section Bytes

variable {pushes : List τ} {popped p : ℕ} {pusher pusher' : Pusher τ} {popper popper' : Popper τ}

theorem bytes_full {v : τ} (hv : pushes[p]? = some v) (hp : p = popped → popper.bytes = none) :
    bytes pushes popped pusher popper p = .live v := by
  rw [bytes,hv]
  by_cases heq : p = popped
  · simp only [if_pos heq,hp heq]
    rfl
  · simp only [if_neg heq]

theorem bytes_oldest {v : τ} {b : Storage τ} (hv : pushes[popped]? = some v)
    (hb : popper.bytes = some b) : bytes pushes popped pusher popper popped = b := by
  rw [bytes,hv]
  simp only [if_pos,hb]
  rfl

theorem bytes_next : bytes pushes popped pusher popper pushes.length = pusher.bytes := by
  simp [bytes]

theorem bytes_free (hp : pushes.length ≤ p) (hpusher : p = pushes.length → pusher.bytes = .raw) :
    bytes pushes popped pusher popper p = .raw := by
  rw [bytes,List.getElem?_eq_none hp]
  by_cases heq : p = pushes.length
  · exact (if_pos heq).trans (hpusher heq)
  · exact if_neg heq

/-- Only the slot it is filling depends on the producer. -/
theorem bytes_setPusher (h : p ≠ pushes.length ∨ pusher'.bytes = pusher.bytes) :
    bytes pushes popped pusher' popper p = bytes pushes popped pusher popper p := by
  rcases h with h | h
  · simp only [bytes,if_neg h]
  · simp only [bytes,h]

/-- Only the slot it is emptying depends on the consumer. -/
theorem bytes_setPopper (h : p ≠ popped ∨ popper'.bytes = popper.bytes) :
    bytes pushes popped pusher popper' p = bytes pushes popped pusher popper p := by
  rcases h with h | h
  · simp only [bytes,if_neg h]
  · simp only [bytes,h]

end Bytes

/-- The slots after one position changed. -/
theorem Inv.storage_update (h : Inv s) {p : ℕ} {b : Storage τ} {f : ℕ → Storage τ}
    (hp : s.pops.length ≤ p ∧ p < s.pops.length+cap.n) (hthis : f p = b)
    (hother : ∀ q, q ≠ p → f q = bytes s.pushes s.pops.length s.pusher s.popper q) (q : ℕ)
    (hq : s.pops.length ≤ q) (hq' : q < s.pops.length+cap.n) :
    Function.update s.storage (cap.slot (UInt64.ofNat p)) b (cap.slot (UInt64.ofNat q)) = f q := by
  by_cases hqp : q = p
  · rw [hqp,Function.update_self,hthis]
  · rw [Function.update_of_ne (slot_ne ⟨hq,hq'⟩ hp hqp),hother q hqp]
    exact h.storage q hq hq'

/-- The oldest value lies in the slot of the consumer counter until it is taken. -/
theorem Inv.oldest_live (h : Inv s) (hlt : s.pops.length < s.pushes.length)
    (hpopper : s.popper.bytes = none) :
    ∃ v, s.pushes[s.pops.length]? = some v ∧ s.storage (cap.slot s.consumer) = .live v := by
  have hv := List.getElem?_eq_getElem hlt
  refine ⟨_,hv,?_⟩
  rw [h.consumer,h.storage _ le_rfl (Nat.lt_add_of_pos_right cap.pos)]
  exact bytes_full hv fun _ => hpopper

/-- A step of the producer that leaves the slots alone. -/
theorem Inv.setPusher (h : Inv s) {pc : Pusher τ} {refusals : List ℕ}
    (hbytes : pc.bytes = s.pusher.bytes) (hok : PushOk s pc)
    (hrefusals : ∀ k ∈ refusals, k = cap.n) :
    Inv { s with
      pusher := pc
      refusals := refusals } where
  producer := h.producer
  consumer := h.consumer
  fifo := h.fifo
  bounded := h.bounded
  storage := fun p hp hp' => (h.storage p hp hp').trans (bytes_setPusher (.inr hbytes)).symm
  pusher := hok
  popper := h.popper
  refusals := hrefusals
  misses := h.misses

theorem Inv.setPopper (h : Inv s) {pc : Popper τ} {misses : List ℕ}
    (hbytes : pc.bytes = s.popper.bytes) (hok : PopOk s pc) (hmisses : ∀ k ∈ misses, k = 0) :
    Inv { s with
      popper := pc
      misses := misses } where
  producer := h.producer
  consumer := h.consumer
  fifo := h.fifo
  bounded := h.bounded
  storage := fun p hp hp' => (h.storage p hp hp').trans (bytes_setPopper (.inr hbytes)).symm
  pusher := h.pusher
  popper := hok
  refusals := h.refusals
  misses := hmisses

/-- A step of the producer inside the slot it has reserved. -/
theorem Inv.fill (h : Inv s) {head : UInt64} {pc : Pusher τ} {b : Storage τ}
    (hhead : head = s.producer) (hroom : s.pushes.length < s.pops.length+cap.n)
    (hb : pc.bytes = b) (hok : PushOk s pc) :
    Inv { s with
      storage := Function.update s.storage (cap.slot head) b
      pusher := pc } where
  producer := h.producer
  consumer := h.consumer
  fifo := h.fifo
  bounded := h.bounded
  storage := by
    rw [hhead,h.producer]
    exact h.storage_update ⟨h.fifo.length_le,hroom⟩ (bytes_next.trans hb)
      fun q hq => bytes_setPusher (.inl hq)
  pusher := hok
  popper := h.popper
  refusals := h.refusals
  misses := h.misses

/-- A step of the consumer inside the slot it is emptying. -/
theorem Inv.drain (h : Inv s) {tail : UInt64} {pc : Popper τ} {out : τ} {b : Storage τ}
    (htail : tail = s.consumer) (hout : s.pushes[s.pops.length]? = some out)
    (hb : pc.bytes = some b) (hok : PopOk s pc) :
    Inv { s with
      storage := Function.update s.storage (cap.slot tail) b
      popper := pc } where
  producer := h.producer
  consumer := h.consumer
  fifo := h.fifo
  bounded := h.bounded
  storage := by
    rw [htail,h.consumer]
    exact h.storage_update ⟨le_rfl,Nat.lt_add_of_pos_right cap.pos⟩ (bytes_oldest hout hb)
      fun q hq => bytes_setPopper (.inl hq)
  pusher := h.pusher
  popper := hok
  refusals := h.refusals
  misses := h.misses

/-- The consumer holds a value only if there is one. -/
theorem PopOk.bytes_eq_none {pc : Popper τ} (h : PopOk s pc)
    (hempty : s.pushes.length ≤ s.pops.length) : pc.bytes = none := by
  have hnone := List.getElem?_eq_none hempty
  cases pc with
  | destroy tail out => exact absurd (h.2.symm.trans hnone) (Option.some_ne_none _)
  | release tail out => exact absurd (h.2.symm.trans hnone) (Option.some_ne_none _)
  | _ => rfl

theorem PopOk.push {pc : Popper τ} {v : τ} (h : PopOk s pc) (hconsumer : t.consumer = s.consumer)
    (hpops : t.pops = s.pops) (hpushes : t.pushes = s.pushes ++ [v]) : PopOk t pc := by
  have hnext : ∀ out, s.pushes[s.pops.length]? = some out → t.pushes[t.pops.length]? = some out :=
    fun out hout => by
      rw [hpops,hpushes]
      exact prefix_getElem? (List.prefix_append ..) hout
  cases pc with
  | loadHead tail => exact Eq.trans h hconsumer.symm
  | move tail =>
    refine ⟨h.1.trans hconsumer.symm,?_⟩
    rw [hpops,hpushes,List.length_append]
    exact Nat.lt_add_right 1 h.2
  | destroy tail out => exact ⟨h.1.trans hconsumer.symm,hnext out h.2⟩
  | release tail out => exact ⟨h.1.trans hconsumer.symm,hnext out h.2⟩
  | _ => trivial

theorem Inv.publish (h : Inv s) {v : τ} {head : UInt64} (hs : s.pusher = .publish v head) :
    Inv { s with
      producer := head+1
      pusher := .returned true
      pushes := s.pushes ++ [v] } := by
  have hok := h.pusher
  rw [hs] at hok
  obtain ⟨hhead,hroom⟩ := hok
  exact {
    producer := by
      rw [hhead,h.producer,List.length_append]
      exact (UInt64.ofNat_add ..).symm
    consumer := h.consumer
    fifo := h.fifo.trans (List.prefix_append ..)
    bounded := by
      rw [List.length_append]
      exact hroom
    storage := fun p hp hp' => by
      rw [h.storage p hp hp']
      rcases lt_trichotomy p s.pushes.length with hlt | rfl | hgt
      · simp only [bytes,List.getElem?_append_left hlt,List.getElem?_eq_getElem hlt]
      · rw [bytes_next,hs]
        exact (bytes_full List.getElem?_concat_length
          fun hempty => h.popper.bytes_eq_none hempty.le).symm
      · rw [bytes_free hgt.le fun heq => absurd heq hgt.ne']
        exact (bytes_free (by rw [List.length_append]; exact hgt) fun _ => rfl).symm
    pusher := trivial
    popper := h.popper.push rfl rfl rfl
    refusals := h.refusals
    misses := h.misses }

theorem PushOk.bytes_eq_raw {pc : Pusher τ} (h : PushOk s pc)
    (hfull : s.pops.length+cap.n ≤ s.pushes.length) : pc.bytes = .raw := by
  cases pc with
  | constructing v head => exact absurd h.2 (Nat.not_lt.mpr hfull)
  | publish v head => exact absurd h.2 (Nat.not_lt.mpr hfull)
  | _ => rfl

theorem PushOk.pop {pc : Pusher τ} (h : PushOk s pc) (hproducer : t.producer = s.producer)
    (hpushes : t.pushes = s.pushes) (hpops : s.pops.length ≤ t.pops.length) : PushOk t pc := by
  have hroom : s.pushes.length < s.pops.length+cap.n → t.pushes.length < t.pops.length+cap.n := by
    rw [hpushes]
    omega
  cases pc with
  | loadTail v head => exact Eq.trans h hproducer.symm
  | construct v head => exact ⟨h.1.trans hproducer.symm,hroom h.2⟩
  | constructing v head => exact ⟨h.1.trans hproducer.symm,hroom h.2⟩
  | publish v head => exact ⟨h.1.trans hproducer.symm,hroom h.2⟩
  | _ => trivial

theorem Inv.release (h : Inv s) {tail : UInt64} {out : τ} (hs : s.popper = .release tail out) :
    Inv { s with
      consumer := tail+1
      popper := .returned (some out)
      pops := s.pops ++ [out] } := by
  have hok := h.popper
  rw [hs] at hok
  obtain ⟨htail,hout⟩ := hok
  have hlt := (List.getElem?_eq_some_iff.mp hout).1
  exact {
    producer := h.producer
    consumer := by
      rw [htail,h.consumer,List.length_append]
      exact (UInt64.ofNat_add ..).symm
    fifo := prefix_concat h.fifo hout
    bounded := by
      rw [List.length_append]
      exact h.bounded.trans (by omega)
    storage := fun p hp hp' => by
      rw [List.length_append,List.length_singleton] at hp hp'
      rcases Nat.lt_or_ge p (s.pops.length+cap.n) with hold | hnew
      · rw [h.storage p (by omega) hold]
        cases hv : s.pushes[p]? with
        | none => simp only [bytes,hv]
        | some v =>
          rw [bytes_full hv fun heq => absurd heq (by omega)]
          exact (bytes_full hv fun _ => rfl).symm
      · -- the slot just emptied comes round again
        have hp : p = s.pops.length+cap.n := by omega
        have hslot : cap.slot (UInt64.ofNat p) = cap.slot (UInt64.ofNat s.pops.length) := by
          apply Fin.ext
          rw [cap.slot_ofNat,cap.slot_ofNat,hp,Nat.add_mod_right]
        rw [hslot,h.storage _ le_rfl (by omega),bytes_oldest hout (by rw [hs]; rfl)]
        exact (bytes_free (h.bounded.trans_eq hp.symm)
          fun heq => h.pusher.bytes_eq_raw (hp.symm.trans heq).le).symm
    pusher := h.pusher.pop rfl rfl (by simp)
    popper := trivial
    refusals := h.refusals
    misses := h.misses }

theorem tryPush_inv (h : Inv s) (hstep : tryPush s s.pusher = some t) : Inv t := by
  have hok := h.pusher
  rcases tryPush_cases hstep with ⟨v,hs,rfl⟩ | ⟨v,head,hs,hfull,rfl⟩ | ⟨v,head,hs,hfull,rfl⟩ |
    ⟨v,head,hs,rfl⟩ | ⟨v,head,hs,rfl⟩ | ⟨v,head,hs,rfl⟩ <;> rw [hs] at hok
  · exact h.setPusher (by rw [hs]; rfl) rfl h.refusals
  · refine h.setPusher (by rw [hs]; rfl) trivial fun k hk => ?_
    rw [hok,h.full_iff] at hfull
    rcases List.mem_append.mp hk with hk | hk
    · exact h.refusals k hk
    · rwa [List.mem_singleton.mp hk]
  · refine h.setPusher (by rw [hs]; rfl) ⟨hok,?_⟩ h.refusals
    rw [hok,h.full_iff,State.present] at hfull
    have := h.bounded
    omega
  · exact h.fill hok.1 hok.2 rfl hok
  · exact h.fill hok.1 hok.2 rfl hok
  · exact h.publish hs

theorem tryPop_inv (h : Inv s) (hstep : tryPop s s.popper = some t) : Inv t := by
  have hok := h.popper
  rcases tryPop_cases hstep with ⟨hs,rfl⟩ | ⟨tail,hs,hempty,rfl⟩ | ⟨tail,hs,hempty,rfl⟩ |
    ⟨tail,v,hs,hlive,rfl⟩ | ⟨tail,out,hs,rfl⟩ | ⟨tail,out,hs,rfl⟩ <;> rw [hs] at hok
  · exact h.setPopper (by rw [hs]; rfl) rfl h.misses
  · refine h.setPopper (by rw [hs]; rfl) trivial fun k hk => ?_
    rw [hok,h.empty_iff] at hempty
    rcases List.mem_append.mp hk with hk | hk
    · exact h.misses k hk
    · rwa [List.mem_singleton.mp hk]
  · refine h.setPopper (by rw [hs]; rfl) ⟨hok,?_⟩ h.misses
    rw [Ne,hok,h.empty_iff,State.present] at hempty
    omega
  · obtain ⟨w,hw,hstored⟩ := h.oldest_live hok.2 (by rw [hs]; rfl)
    rw [hok.1,hstored] at hlive
    cases hlive
    exact h.drain hok.1 hw rfl ⟨hok.1,hw⟩
  · exact h.drain hok.1 hok.2 rfl hok
  · exact h.release hs

theorem step_inv {a : Action τ} (h : Inv s) (hstep : step s a = some t) : Inv t := by
  cases a with
  | callPush v =>
    obtain ⟨hs,rfl⟩ := callPush_cases hstep
    refine h.setPusher ?_ trivial h.refusals
    rcases hs with hs | ⟨ok,hs⟩ <;> rw [hs] <;> rfl
  | push => exact tryPush_inv h hstep
  | callPop =>
    obtain ⟨hs,rfl⟩ := callPop_cases hstep
    refine h.setPopper ?_ trivial h.misses
    rcases hs with hs | ⟨out,hs⟩ <;> rw [hs] <;> rfl
  | pop => exact tryPop_inv h hstep

end Steps

/-! ### What a caller sees -/

/-- The value of a `try_push` in progress. -/
def Pusher.value : Pusher τ → Option τ
  | .loadHead v => some v
  | .loadTail v _ => some v
  | .construct v _ => some v
  | .constructing v _ => some v
  | .publish v _ => some v
  | _ => none

/-- A step inside `try_push`: the call goes on, or returns, and pushes its value if it
returns true. -/
theorem step_push_value {s t : State cap τ} (h : step s .push = some t) :
    t.pops = s.pops ∧ t.popper = s.popper ∧ ∃ v, s.pusher.value = some v ∧
      (t.pushes = s.pushes ∧ t.pusher.value = some v ∨
      t.pushes = s.pushes ++ [v] ∧ t.pusher = .returned true ∨
      t.pushes = s.pushes ∧ t.pusher = .returned false) := by
  rcases tryPush_cases h with ⟨v,hs,rfl⟩ | ⟨v,head,hs,-,rfl⟩ | ⟨v,head,hs,-,rfl⟩ | ⟨v,head,hs,rfl⟩ |
    ⟨v,head,hs,rfl⟩ | ⟨v,head,hs,rfl⟩ <;> refine ⟨rfl,rfl,v,by rw [hs]; rfl,?_⟩
  · exact .inl ⟨rfl,rfl⟩
  · exact .inr (.inr ⟨rfl,rfl⟩)
  · exact .inl ⟨rfl,rfl⟩
  · exact .inl ⟨rfl,rfl⟩
  · exact .inl ⟨rfl,rfl⟩
  · exact .inr (.inl ⟨rfl,rfl⟩)

/-- A step inside `try_pop`: what it returns, and what it has then popped. -/
theorem step_pop_value {s t : State cap τ} (h : step s .pop = some t) :
    t.pushes = s.pushes ∧ t.pusher = s.pusher ∧
      ((∃ v, t.popper = .returned (some v) ∧ t.pops = s.pops ++ [v]) ∨
      (∀ v, t.popper ≠ .returned (some v)) ∧ t.pops = s.pops) := by
  rcases tryPop_cases h with ⟨-,rfl⟩ | ⟨tail,-,-,rfl⟩ | ⟨tail,-,-,rfl⟩ | ⟨tail,v,-,-,rfl⟩ |
    ⟨tail,out,-,rfl⟩ | ⟨tail,out,-,rfl⟩ <;> refine ⟨rfl,rfl,?_⟩
  · exact .inr ⟨nofun,rfl⟩
  · exact .inr ⟨nofun,rfl⟩
  · exact .inr ⟨nofun,rfl⟩
  · exact .inr ⟨nofun,rfl⟩
  · exact .inr ⟨nofun,rfl⟩
  · exact .inl ⟨out,rfl,rfl⟩

/-- Nothing is refused by a queue that nothing was pushed to. -/
theorem step_push_ne_nil {s t : State cap τ} (hinv : Inv s) (h : step s .push = some t)
    {ok : Bool} (hret : t.pusher = .returned ok) : t.pushes ≠ [] := by
  have hok := hinv.pusher
  rcases tryPush_cases h with ⟨v,-,rfl⟩ | ⟨v,head,hs,hfull,rfl⟩ | ⟨v,head,-,-,rfl⟩ |
    ⟨v,head,-,rfl⟩ | ⟨v,head,-,rfl⟩ | ⟨v,head,-,rfl⟩
  · cases hret
  · rw [hs] at hok
    rw [hok,hinv.full_iff,State.present] at hfull
    intro hnil
    rw [show s.pushes = [] from hnil,List.length_nil,Nat.zero_sub] at hfull
    exact cap.pos.ne hfull
  · cases hret
  · cases hret
  · cases hret
  · simp

/-- A `try_pop` that returns false has popped everything. -/
theorem step_pop_none {s t : State cap τ} (hinv : Inv s) (h : step s .pop = some t)
    (hnone : t.popper = .returned none) : t.pops = t.pushes := by
  have hok := hinv.popper
  rcases tryPop_cases h with ⟨-,rfl⟩ | ⟨tail,hs,hempty,rfl⟩ | ⟨tail,-,-,rfl⟩ | ⟨tail,v,-,-,rfl⟩ |
    ⟨tail,out,-,rfl⟩ | ⟨tail,out,-,rfl⟩
  · cases hnone
  · rw [hs] at hok
    rw [hok,hinv.empty_iff,State.present] at hempty
    exact hinv.fifo.eq_of_length_le (Nat.sub_eq_zero_iff_le.mp hempty)
  all_goals cases hnone

/-! ### Every run -/

/-- What the queue promises, whatever its counters have come to. -/
structure Fifo (s : State cap τ) : Prop where
  in_order : s.pops <+: s.pushes
  bounded : s.present ≤ cap.n
  /-- The slot under construction holds no object any more. -/
  constructs : ∀ v head, s.pusher = .construct v head → s.storage (cap.slot head) = .raw
  /-- The slot about to be moved from holds the oldest value. -/
  moves : ∀ tail, s.popper = .move tail →
    ∃ v, s.pushes[s.pops.length]? = some v ∧ s.storage (cap.slot tail) = .live v
  refused_full : ∀ k ∈ s.refusals, k = cap.n
  missed_empty : ∀ k ∈ s.misses, k = 0

theorem Inv.fifo_queue {s : State cap τ} (h : Inv s) : Fifo s where
  in_order := h.fifo
  bounded := h.present_le
  constructs := fun v head hs => by
    have hok := h.pusher
    rw [hs] at hok
    rw [hok.1,h.producer,h.storage _ h.fifo.length_le hok.2,bytes_next,hs]
    rfl
  moves := fun tail hs => by
    have hok := h.popper
    rw [hs] at hok
    rw [hok.1]
    exact h.oldest_live hok.2 (by rw [hs]; rfl)
  refused_full := h.refusals
  missed_empty := h.misses

/-- Every run, of any length, is one of a first-in first-out queue of capacity `N`. -/
theorem run_fifo_queue {as : List (Action τ)} {s : State cap τ}
    (hrun : Transition.run step start as = some s) : Fifo s := by
  have hreach : Transition.Reachable step start s := Transition.reachable_iff_run.mpr ⟨as,hrun⟩
  exact (hreach.invariant start_inv fun _ _ _ h _ hstep => step_inv h hstep).fifo_queue

/-- The queue is filled, refuses a third value that is in flight while the first is taken,
is emptied and found empty. -/
def filled : List (Action ℕ) :=
  [.callPop,.pop,.pop,.callPush 7,.push,.push,.push,.push,.push,.callPush 8,.push,.push,.push,
    .push,.push,.callPop,.pop,.pop,.pop,.callPush 9,.push,.push,.pop,.pop,.callPop,.pop,.pop,
    .pop,.pop,.pop,.callPop,.pop,.pop]

theorem run_fifo_queue_filled : ∃ s : State Capacity.two ℕ,
    Transition.run step start filled = some s ∧ s.pops = [7,8] ∧ s.refusals = [2] ∧
      s.misses = [0,0] ∧ Fifo s := by
  obtain ⟨s,hrun,hpops,hrefusals,hmisses⟩ : ∃ s : State Capacity.two ℕ,
      Transition.run step start filled = some s ∧ s.pops = [7,8] ∧ s.refusals = [2] ∧
      s.misses = [0,0] := ⟨_,rfl,rfl,rfl,rfl⟩
  exact ⟨s,hrun,hpops,hrefusals,hmisses,run_fifo_queue hrun⟩

end SpscQueue
end Marketlib
