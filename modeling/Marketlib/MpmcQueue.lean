import Marketlib.Transition
import Marketlib.TryPush

/-! The queue with any number of consumers: both ends claim a position by a
compare-exchange. `claims` and `returned` record what the consumers did and are read by no
step. -/

namespace Marketlib
namespace MpmcQueue

open TicketRing

variable {cap : Capacity} {ι κ τ : Type*}

/-- Where a consumer is in `try_pop`; the comment names the access that is next. -/
inductive PopPc (τ : Type*)
  | idle
  /-- `pos = tail_.value.load()`. -/
  | loadTail
  /-- `seq = slot->seq.load()`. -/
  | loadSeq (pos : UInt64)
  /-- `compare_exchange_weak(pos, pos + 1)`. -/
  | compareExchange (pos : UInt64)
  /-- `out = std::move(*ptr)`. -/
  | move (pos : UInt64)
  /-- `std::destroy_at(ptr)`. -/
  | destroy (pos : UInt64) (out : τ)
  /-- `slot->seq.store(pos + N)`. -/
  | release (pos : UInt64) (out : τ)
  | returned (out : Option τ)

/-- The position a consumer holds. -/
def PopPc.claim : PopPc τ → Option UInt64
  | .move pos => some pos
  | .destroy pos _ => some pos
  | .release pos _ => some pos
  | _ => none

structure State (cap : Capacity) (ι κ τ : Type*) where
  mem : Memory cap ι τ
  tail : UInt64
  producers : ι → PushPc τ
  consumers : κ → PopPc τ
  /-- The positions the consumers claimed, in the order of the claims. -/
  claims : List (κ × UInt64)
  /-- The positions handed back, with the values returned for them. -/
  returned : List (κ × UInt64 × τ)

def start : State cap ι κ τ where
  mem := .init
  tail := 0
  producers := fun _ => .idle
  consumers := fun _ => .idle
  claims := []
  returned := []

inductive PopAction
  | call
  | step
  /-- A spurious failure of the weak compare-exchange. -/
  | spurious

inductive Action (ι κ τ : Type*)
  | push (t : ι) (a : PushAction τ)
  | pop (k : κ) (a : PopAction)

section Step

variable [DecidableEq κ]

/-- `try_pop`. Moving from bytes that hold no object has no successor. -/
def tryPop (s : State cap ι κ τ) (k : κ) : PopPc τ → PopAction → Option (State cap ι κ τ)
  | .idle, .call => some { s with consumers := Function.update s.consumers k .loadTail }
  | .returned _, .call => some { s with consumers := Function.update s.consumers k .loadTail }
  | .loadTail, .step => some { s with consumers := Function.update s.consumers k (.loadSeq s.tail) }
  | .loadSeq pos, .step =>
    let diff := signedDiff (s.mem.seq (cap.slot pos)) (pos+1)
    if diff = 0 then
      some { s with consumers := Function.update s.consumers k (.compareExchange pos) }
    else if diff < 0 then
      some { s with consumers := Function.update s.consumers k (.returned none) }
    else some { s with consumers := Function.update s.consumers k .loadTail }
  | .compareExchange pos, .step =>
    if s.tail = pos then
      some { s with
        tail := pos+1
        consumers := Function.update s.consumers k (.move pos)
        claims := s.claims ++ [(k,pos)] }
    else some { s with consumers := Function.update s.consumers k (.loadSeq s.tail) }
  | .compareExchange _, .spurious =>
    some { s with consumers := Function.update s.consumers k (.loadSeq s.tail) }
  | .move pos, .step =>
    match s.mem.storage (cap.slot pos) with
    | .live v => some { s with
        mem := { s.mem with storage := Function.update s.mem.storage (cap.slot pos) .moved }
        consumers := Function.update s.consumers k (.destroy pos v) }
    | _ => none
  | .destroy pos out, .step => some { s with
      mem := { s.mem with storage := Function.update s.mem.storage (cap.slot pos) .raw }
      consumers := Function.update s.consumers k (.release pos out) }
  | .release pos out, .step => some { s with
      mem := { s.mem with
        seq := Function.update s.mem.seq (cap.slot pos) (pos+UInt64.ofNat cap.n) }
      consumers := Function.update s.consumers k (.returned (some out))
      returned := s.returned ++ [(k,pos,out)] }
  | _, _ => none

def step [DecidableEq ι] (s : State cap ι κ τ) : Action ι κ τ → Option (State cap ι κ τ)
  | .push t a =>
    (tryPush s.mem t (s.producers t) a).map fun (m,pc) => { s with
      mem := m
      producers := Function.update s.producers t pc }
  | .pop k a => tryPop s k (s.consumers k) a

variable {s s' : State cap ι κ τ} {k : κ}

theorem tryPop_cases {a : PopAction} (h : tryPop s k (s.consumers k) a = some s') :
    ((s.consumers k).claim = none ∧ ∃ pc : PopPc τ,
      s' = { s with consumers := Function.update s.consumers k pc } ∧
        (pc = .loadTail ∨ pc = .loadSeq s.tail ∨ pc = .returned none ∨
          ∃ pos, s.consumers k = .loadSeq pos ∧ s.mem.seq (cap.slot pos) = pos+1 ∧
            pc = .compareExchange pos)) ∨
    (∃ pos, s.consumers k = .compareExchange pos ∧ s.tail = pos ∧
      s' = { s with
        tail := pos+1
        consumers := Function.update s.consumers k (.move pos)
        claims := s.claims ++ [(k,pos)] }) ∨
    (∃ pos v, s.consumers k = .move pos ∧ s.mem.storage (cap.slot pos) = .live v ∧
      s' = { s with
        mem := { s.mem with storage := Function.update s.mem.storage (cap.slot pos) .moved }
        consumers := Function.update s.consumers k (.destroy pos v) }) ∨
    (∃ pos out, s.consumers k = .destroy pos out ∧
      s' = { s with
        mem := { s.mem with storage := Function.update s.mem.storage (cap.slot pos) .raw }
        consumers := Function.update s.consumers k (.release pos out) }) ∨
    ∃ pos out, s.consumers k = .release pos out ∧
      s' = { s with
        mem := { s.mem with
          seq := Function.update s.mem.seq (cap.slot pos) (pos+UInt64.ofNat cap.n) }
        consumers := Function.update s.consumers k (.returned (some out))
        returned := s.returned ++ [(k,pos,out)] } := by
  unfold tryPop at h
  split at h
  · next hp => exact .inl ⟨by rw [hp]; rfl,_,(Option.some.inj h).symm,.inl rfl⟩
  · next hp => exact .inl ⟨by rw [hp]; rfl,_,(Option.some.inj h).symm,.inl rfl⟩
  · next hp => exact .inl ⟨by rw [hp]; rfl,_,(Option.some.inj h).symm,.inr (.inl rfl)⟩
  · next pos hp =>
    have hclaim : (s.consumers k).claim = none := by rw [hp]; rfl
    simp only at h
    split_ifs at h with hzero hneg
    · exact .inl ⟨hclaim,_,(Option.some.inj h).symm,
        .inr (.inr (.inr ⟨pos,hp,signedDiff_eq_zero.mp hzero,rfl⟩))⟩
    · exact .inl ⟨hclaim,_,(Option.some.inj h).symm,.inr (.inr (.inl rfl))⟩
    · exact .inl ⟨hclaim,_,(Option.some.inj h).symm,.inl rfl⟩
  · next pos hp =>
    split_ifs at h with heq
    · exact .inr (.inl ⟨pos,hp,heq,(Option.some.inj h).symm⟩)
    · exact .inl ⟨by rw [hp]; rfl,_,(Option.some.inj h).symm,.inr (.inl rfl)⟩
  · next hp => exact .inl ⟨by rw [hp]; rfl,_,(Option.some.inj h).symm,.inr (.inl rfl)⟩
  · next pos hp =>
    split at h
    · next v hv => exact .inr (.inr (.inl ⟨pos,v,hp,hv,(Option.some.inj h).symm⟩))
    · cases h
  · next pos out hp => exact .inr (.inr (.inr (.inl ⟨pos,out,hp,(Option.some.inj h).symm⟩)))
  · next pos out hp => exact .inr (.inr (.inr (.inr ⟨pos,out,hp,(Option.some.inj h).symm⟩)))
  · cases h

theorem step_push [DecidableEq ι] {t : ι} {a : PushAction τ} (h : step s (.push t a) = some s') :
    ∃ m pc, tryPush s.mem t (s.producers t) a = some (m,pc) ∧
      s' = { s with mem := m, producers := Function.update s.producers t pc } := by
  simp only [step,Option.map_eq_some_iff] at h
  obtain ⟨⟨m,pc⟩,hstep,rfl⟩ := h
  exact ⟨m,pc,hstep,rfl⟩

end Step

/-! ### The invariant -/

/-- Consumer `k` holds the position its slot serves, and the slot's bytes are `bytes`. -/
structure Holds (m : Memory cap ι τ) (r : Ring cap.n ι κ) (k : κ) (pos : UInt64) (v : τ)
    (bytes : Storage τ) : Prop where
  pos_eq : pos = UInt64.ofNat (r.cur (cap.slot pos))
  stage : r.stage (cap.slot pos) = .reading k
  claimed : ∃ t, m.pushes[r.cur (cap.slot pos)]? = some (t,v)
  storage : m.storage (cap.slot pos) = bytes

/-- The value of position `p` is complete, or was taken already. -/
def Passed (r : Ring cap.n ι κ) (i : Fin cap.n) (p : ℕ) : Prop :=
  p < r.cur i ∨ p = r.cur i ∧ (r.stage i = .full ∨ ∃ k, r.stage i = .reading k)

def PopPc.Ok (m : Memory cap ι τ) (r : Ring cap.n ι κ) (k : κ) : PopPc τ → Prop
  | .loadSeq pos => ∃ p, pos = UInt64.ofNat p ∧ p ≤ r.tail
  | .compareExchange pos => ∃ p, pos = UInt64.ofNat p ∧ Passed r (cap.slot pos) p
  | .move pos => ∃ v, Holds m r k pos v (.live v)
  | .destroy pos v => Holds m r k pos v .moved
  | .release pos v => Holds m r k pos v .raw
  | _ => True

structure Inv (s : State cap ι κ τ) (r : Ring cap.n ι κ) : Prop where
  sim : Sim s.mem s.producers r
  tail : s.tail = UInt64.ofNat r.tail
  claims : s.claims.map Prod.snd = (List.range r.tail).map UInt64.ofNat
  reading : ∀ i k, r.stage i = .reading k →
    ∃ pos, (s.consumers k).claim = some pos ∧ cap.slot pos = i
  consumers : ∀ k, (s.consumers k).Ok s.mem r k
  holding : ∀ k pos, (s.consumers k).claim = some pos → (k,pos) ∈ s.claims
  /-- What was handed back was claimed, and carried the value pushed at its position. -/
  returned : ∀ x ∈ s.returned, (x.1,x.2.1) ∈ s.claims ∧
    ∃ p t, x.2.1 = UInt64.ofNat p ∧ p < r.cur (cap.slot x.2.1) ∧
      s.mem.pushes[p]? = some (t,x.2.2)
  distinct : (s.returned.map fun x => x.2.1).Nodup
  /-- What was claimed was handed back, or is held. -/
  held : ∀ x ∈ s.claims, (∃ v, (x.1,x.2,v) ∈ s.returned) ∨ (s.consumers x.1).claim = some x.2

/-- The state is one of a ring. -/
def Sound (s : State cap ι κ τ) : Prop := ∃ r, Inv s r

theorem start_inv : Inv (start : State cap ι κ τ) .init where
  sim := .init _ fun _ => rfl
  tail := rfl
  claims := rfl
  reading := fun _ _ hi => by simp [Ring.init] at hi
  consumers := fun _ => trivial
  holding := fun _ _ hk => by cases hk
  returned := fun _ hx => by simp [start] at hx
  distinct := List.nodup_nil
  held := fun _ hx => by simp [start] at hx

variable {s s' : State cap ι κ τ} {r r' : Ring cap.n ι κ} {m m' : Memory cap ι τ} {k : κ}

/-- A step of others leaves alone what a consumer is reading, and never moves back. -/
theorem PopPc.Ok.mono {pc : PopPc τ} (h : pc.Ok m r k)
    (hown : ∀ i, r.stage i = .reading k →
      r'.stage i = .reading k ∧ r'.cur i = r.cur i ∧ m'.storage i = m.storage i)
    (hpassed : ∀ i p, Passed r i p → Passed r' i p) (htail : r.tail ≤ r'.tail)
    (hpushes : m.pushes <+: m'.pushes) : pc.Ok m' r' k := by
  have hholds : ∀ {pos v bytes}, Holds m r k pos v bytes → Holds m' r' k pos v bytes := by
    intro pos v bytes hh
    obtain ⟨hstage,hcur,hstorage⟩ := hown _ hh.stage
    obtain ⟨t,hclaimed⟩ := hh.claimed
    exact {
      pos_eq := by rw [hcur]; exact hh.pos_eq
      stage := hstage
      claimed := ⟨t,by rw [hcur]; exact prefix_getElem? hpushes hclaimed⟩
      storage := hstorage.trans hh.storage }
  cases pc with
  | loadSeq pos =>
    obtain ⟨p,hp,hle⟩ := h
    exact ⟨p,hp,hle.trans htail⟩
  | compareExchange pos =>
    obtain ⟨p,hp,hpass⟩ := h
    exact ⟨p,hp,hpassed _ _ hpass⟩
  | move pos =>
    obtain ⟨v,hh⟩ := h
    exact ⟨v,hholds hh⟩
  | destroy pos v => exact hholds h
  | release pos v => exact hholds h
  | _ => trivial

theorem step_push_inv [DecidableEq ι] [DecidableEq κ] (h : Inv s r) {t : ι} {a : PushAction τ}
    (hb : s'.mem.pushes.length ≤ 2^64) (hstep : step s (.push t a) = some s') :
    Sound s' := by
  obtain ⟨m,pc,hpush,rfl⟩ := step_push hstep
  obtain ⟨r',hsim,hu⟩ := h.sim.push hb hpush
  refine ⟨r',{
    sim := hsim
    tail := by rw [hu.tail]; exact h.tail
    claims := by rw [hu.tail]; exact h.claims
    reading := fun i k hk => ?_
    consumers := fun k => ?_
    holding := h.holding
    returned := fun x hx => ?_
    distinct := h.distinct
    held := h.held }⟩
  · -- a slot being read was being read before the push
    refine h.reading i k ?_
    obtain ⟨k',hk'⟩ := (r.reading_iff i).mpr
      (by rw [← hu.cur,← hu.tail]; exact (r'.reading_iff i).mp ⟨k,hk⟩)
    rw [(hu.reading i k' hk').1] at hk
    rw [hk',hk]
  · refine (h.consumers k).mono (fun i hi => ?_) (fun i p hp => ?_) hu.tail.ge hu.pushes
    · obtain ⟨hstage,hstorage⟩ := hu.reading i k hi
      exact ⟨hstage,congrFun hu.cur i,hstorage⟩
    · unfold Passed
      rw [hu.cur]
      rcases hp with hlt | ⟨heq,hfull | ⟨k',hk'⟩⟩
      · exact .inl hlt
      · exact .inr ⟨heq,.inl (hu.full i hfull)⟩
      · exact .inr ⟨heq,.inr ⟨k',(hu.reading i k' hk').1⟩⟩
  · obtain ⟨hclaim,p,u,hp,hlt,hpush⟩ := h.returned x hx
    exact ⟨hclaim,p,u,hp,by rw [hu.cur]; exact hlt,prefix_getElem? hu.pushes hpush⟩

/-- A slot being read has one reader. -/
theorem Inv.reader (h : Inv s r) {pos : UInt64} (hclaim : (s.consumers k).claim = some pos)
    {i : Fin cap.n} (hi : r.stage i = .reading k) : i = cap.slot pos := by
  obtain ⟨pos',hclaim',hslot⟩ := h.reading i k hi
  rw [hclaim] at hclaim'
  cases hclaim'
  exact hslot.symm

/-- The slot shows one past the position: its value is complete, unless it was taken since. -/
theorem Inv.passed_of_seq (h : Inv s r) {p : ℕ} {pos : UInt64} (hp : pos = UInt64.ofNat p)
    (hle : p ≤ r.tail) (hseq : s.mem.seq (cap.slot pos) = pos+1) (hhead : r.head < 2^63) :
    Passed r (cap.slot pos) p := by
  have hslot : p % cap.n = (cap.slot pos).val := by rw [hp,cap.slot_ofNat]
  have hword : UInt64.ofNat (r.shown (cap.slot pos)) = UInt64.ofNat (p+1) := by
    rw [← h.sim.seq,hseq,hp]
    exact (UInt64.ofNat_add p 1).symm
  have hmod : r.shown (cap.slot pos) % cap.n = (p+1) % cap.n := by
    rw [← cap.slot_ofNat,← cap.slot_ofNat,hword]
  obtain ⟨hshown,hstage⟩ := r.shown_next cap.two_le hslot hmod
  have htoNat := congrArg UInt64.toNat hword
  rw [UInt64.toNat_ofNat',UInt64.toNat_ofNat',hshown] at htoNat
  have hbound := r.ahead (cap.slot pos)
  have htail := r.tail_le
  have hcap := cap.addressable
  exact .inr ⟨by omega,hstage⟩

/-- The compare-exchange succeeds only at the tail of the ring, and only on a full slot. -/
theorem Inv.tail_full (h : Inv s r) {pos : UInt64} (hpc : s.consumers k = .compareExchange pos)
    (htail : s.tail = pos) (hhead : r.head < 2^63) :
    r.stage (cap.slot pos) = .full ∧ r.cur (cap.slot pos) = r.tail := by
  have hok := h.consumers k
  rw [hpc] at hok
  obtain ⟨p,hp,hpassed⟩ := hok
  have hslot : p % cap.n = (cap.slot pos).val := by rw [hp,cap.slot_ofNat]
  have hahead := r.ahead (cap.slot pos)
  have hle : p ≤ r.cur (cap.slot pos) := hpassed.elim Nat.le_of_lt fun hp => hp.1.le
  have hword : r.tail = p := by
    have heq := congrArg UInt64.toNat (h.tail.symm.trans (htail.trans hp))
    rw [UInt64.toNat_ofNat',UInt64.toNat_ofNat'] at heq
    have := r.tail_le
    have := cap.addressable
    omega
  have hcur : r.cur (cap.slot pos) = p :=
    r.cur_near hslot (by have := cap.pos; omega) (by omega)
  rcases hpassed with hlt | ⟨-,hfull | hreading⟩
  · omega
  · exact ⟨hfull,hcur.trans hword.symm⟩
  · have := (r.reading_iff _).mp hreading
    omega

/-- Claims at both ends. -/
def claimed (s : State cap ι κ τ) : ℕ := s.mem.pushes.length+s.claims.length

/-- A refusal: the position one round before the head was not handed back. -/
theorem Inv.refused (h : Inv s r) {t : ι} {v : τ} {pos : UInt64}
    (hpc : s.producers t = .loadSeq v pos)
    (hneg : signedDiff (s.mem.seq (cap.slot pos)) pos < 0) (hb : claimed s < 2^63) :
    cap.n ≤ s.mem.pushes.length ∧
      ∀ x ∈ s.returned, x.2.1 ≠ UInt64.ofNat (s.mem.pushes.length-cap.n) := by
  have hpushes := h.sim.claims
  have hclaims : s.claims.length = r.tail := by
    have := congrArg List.length h.claims
    simpa using this
  have htail := r.tail_le
  have hcap := cap.addressable
  have htotal : r.head+r.tail < 2^63 := by
    rw [claimed,hpushes,hclaims] at hb
    exact hb
  obtain ⟨hpos,hcur⟩ := h.sim.refused hpc hneg (by omega) (by omega)
  refine ⟨by omega,fun x hx hword => ?_⟩
  obtain ⟨-,p,u,hp,hlt,-⟩ := h.returned x hx
  have hslot : cap.slot x.2.1 = cap.slot pos := by
    apply Fin.ext
    rw [hword,hpos,cap.slot_ofNat,cap.slot_ofNat,hpushes,← hcur,Nat.add_sub_cancel,
      Nat.add_mod_right]
  rw [hslot] at hlt
  have heq := congrArg UInt64.toNat (hp.symm.trans hword)
  rw [UInt64.toNat_ofNat',UInt64.toNat_ofNat'] at heq
  omega

theorem getElem?_toNat (hb : claimed s < 2^63) {p : ℕ} {x : ι × τ} {word : UInt64}
    (hword : word = UInt64.ofNat p) (hp : s.mem.pushes[p]? = some x) :
    s.mem.pushes[word.toNat]? = some x := by
  have hlt := (List.getElem?_eq_some_iff.mp hp).1
  have hpushes : s.mem.pushes.length ≤ claimed s := Nat.le_add_right ..
  rw [hword,UInt64.toNat_ofNat_of_lt' (show p < 2^64 by omega)]
  exact hp

section Pop

variable [DecidableEq κ]

/-- A step of a consumer that holds no slot and claims none. -/
theorem Inv.setConsumer (h : Inv s r) {pc : PopPc τ} (hold : (s.consumers k).claim = none)
    (hnew : pc.claim = none) (hok : pc.Ok s.mem r k) :
    Inv { s with consumers := Function.update s.consumers k pc } r := by
  have hne : ∀ {k' pos}, (s.consumers k').claim = some pos → k' ≠ k := by
    rintro k' pos hclaim rfl
    rw [hold] at hclaim
    cases hclaim
  refine { h with
    reading := fun i k' hk' => ?_
    consumers := fun k' => ?_
    holding := fun k' pos hk' => ?_
    held := fun x hx => ?_ }
  · obtain ⟨pos,hclaim,hslot⟩ := h.reading i k' hk'
    exact ⟨pos,by simpa only [Function.update_of_ne (hne hclaim)] using hclaim,hslot⟩
  · rcases eq_or_ne k' k with rfl | hk
    · simpa only [Function.update_self] using hok
    · simpa only [Function.update_of_ne hk] using h.consumers k'
  · rcases eq_or_ne k' k with rfl | hk
    · simp only [Function.update_self,hnew,reduceCtorEq] at hk'
    · exact h.holding k' pos (by simpa only [Function.update_of_ne hk] using hk')
  · rcases h.held x hx with hreturned | hclaim
    · exact .inl hreturned
    · exact .inr (by simpa only [Function.update_of_ne (hne hclaim)] using hclaim)

/-- Consumers other than `k` keep what they know when the slot `k` claims or holds changes. -/
theorem Inv.consumers_frame (h : Inv s r) {i : Fin cap.n} {pc : PopPc τ}
    (hi : ∀ k', k' ≠ k → r.stage i ≠ .reading k')
    (hother : ∀ j, j ≠ i → r'.stage j = r.stage j ∧ r'.cur j = r.cur j ∧
      m'.storage j = s.mem.storage j)
    (hpassed : ∀ p, Passed r i p → Passed r' i p) (htail : r.tail ≤ r'.tail)
    (hpushes : m'.pushes = s.mem.pushes) (hok : pc.Ok m' r' k) (k' : κ) :
    (Function.update s.consumers k pc k').Ok m' r' k' := by
  rcases eq_or_ne k' k with rfl | hk
  · rwa [Function.update_self]
  · rw [Function.update_of_ne hk]
    refine (h.consumers k').mono (fun j hj => ?_) (fun j p hp => ?_) htail (by rw [hpushes])
    · have hne : j ≠ i := by
        rintro rfl
        exact hi k' hk hj
      obtain ⟨hstage,hcur,hstorage⟩ := hother j hne
      exact ⟨hstage.trans hj,hcur,hstorage⟩
    · rcases eq_or_ne j i with rfl | hne
      · exact hpassed p hp
      · obtain ⟨hstage,hcur,-⟩ := hother j hne
        unfold Passed
        rw [hstage,hcur]
        exact hp

theorem Inv.claimPop (h : Inv s r) {pos : UInt64} (hpc : s.consumers k = .compareExchange pos)
    (htail : s.tail = pos) (hhead : r.head < 2^63) :
    Sound { s with
      tail := pos+1
      consumers := Function.update s.consumers k (.move pos)
      claims := s.claims ++ [(k,pos)] } := by
  obtain ⟨hfull,hcur⟩ := h.tail_full hpc htail hhead
  obtain ⟨t,v,hpush,hlive⟩ := h.sim.full _ hfull
  have hpos : pos = UInt64.ofNat r.tail := htail.symm.trans h.tail
  have hnext : pos+1 = UInt64.ofNat (r.tail+1) := by
    rw [hpos]
    exact (UInt64.ofNat_add r.tail 1).symm
  have hidle : (s.consumers k).claim = none := by rw [hpc]; rfl
  have hstage : (r.claimPop (cap.slot pos) k hfull hcur).stage (cap.slot pos) = .reading k :=
    Function.update_self ..
  refine ⟨r.claimPop (cap.slot pos) k hfull hcur,{
    sim := h.sim.claimPop hfull hcur
    tail := hnext
    claims := ?_
    reading := fun i k' hk' => ?_
    consumers := ?_
    holding := fun k' pos' hk' => ?_
    returned := fun x hx => ?_
    distinct := h.distinct
    held := fun x hx => ?_ }⟩
  · rw [List.map_append,h.claims]
    change _ = (List.range (r.tail+1)).map UInt64.ofNat
    rw [List.range_succ,List.map_append,hpos]
    rfl
  · rcases eq_or_ne i (cap.slot pos) with rfl | hne
    · rw [hstage] at hk'
      cases hk'
      exact ⟨pos,by simp only [Function.update_self]; rfl,rfl⟩
    · obtain ⟨pos',hclaim,hslot⟩ := h.reading i k' ((Function.update_of_ne hne ..).symm.trans hk')
      have hk : k' ≠ k := by
        rintro rfl
        rw [hidle] at hclaim
        cases hclaim
      exact ⟨pos',by simpa only [Function.update_of_ne hk] using hclaim,hslot⟩
  · refine h.consumers_frame (i := cap.slot pos) (by simp [hfull])
      (fun j hj => ⟨Function.update_of_ne hj ..,rfl,rfl⟩) (fun p hp => ?_) (Nat.le_succ _) rfl
      ⟨v,hpos.trans (congrArg _ hcur.symm),hstage,⟨t,hpush⟩,hlive⟩
    rcases hp with hlt | ⟨heq,-⟩
    · exact .inl hlt
    · exact .inr ⟨heq,.inr ⟨k,hstage⟩⟩
  · rcases eq_or_ne k' k with rfl | hk
    · simp only [Function.update_self] at hk'
      cases hk'
      exact List.mem_append_right _ (List.mem_singleton_self _)
    · refine List.mem_append_left _ (h.holding k' pos' ?_)
      simpa only [Function.update_of_ne hk] using hk'
  · obtain ⟨hclaim,hrest⟩ := h.returned x hx
    exact ⟨List.mem_append_left _ hclaim,hrest⟩
  · rcases List.mem_append.mp hx with hx | hx
    · rcases h.held x hx with hreturned | hclaim
      · exact .inl hreturned
      · have hk : x.1 ≠ k := by
          intro heq
          rw [heq,hidle] at hclaim
          cases hclaim
        exact .inr (by simpa only [Function.update_of_ne hk] using hclaim)
    · obtain rfl := List.mem_singleton.mp hx
      exact .inr (by simp only [Function.update_self]; rfl)

/-- The bytes of a slot being read change, and nothing else does. -/
theorem Inv.setBytes (h : Inv s r) {pos : UInt64} {v : τ} {bytes bytes' : Storage τ} {pc : PopPc τ}
    (hclaim : (s.consumers k).claim = some pos) (hclaim' : pc.claim = some pos)
    (hholds : Holds s.mem r k pos v bytes)
    (hok : ∀ m' : Memory cap ι τ, Holds m' r k pos v bytes' → pc.Ok m' r k) :
    Inv { s with
      mem := { s.mem with storage := Function.update s.mem.storage (cap.slot pos) bytes' }
      consumers := Function.update s.consumers k pc } r := by
  have hkeep : ∀ k', (Function.update s.consumers k pc k').claim = (s.consumers k').claim := by
    intro k'
    rcases eq_or_ne k' k with rfl | hk
    · rw [Function.update_self,hclaim',hclaim]
    · rw [Function.update_of_ne hk]
  exact {
    sim := h.sim.setRead hholds.stage bytes'
    tail := h.tail
    claims := h.claims
    reading := fun i k' hk' => by
      obtain ⟨pos',hclaim',hslot⟩ := h.reading i k' hk'
      exact ⟨pos',(hkeep k').trans hclaim',hslot⟩
    consumers := by
      refine h.consumers_frame (i := cap.slot pos) (fun k' hk => ?_)
        (fun j hj => ⟨rfl,rfl,Function.update_of_ne hj ..⟩) (fun _ hp => hp) le_rfl rfl
        (hok _ { hholds with storage := Function.update_self .. })
      rw [hholds.stage]
      simpa using hk.symm
    holding := fun k' pos' hk' => h.holding k' pos' ((hkeep k').symm.trans hk')
    returned := h.returned
    distinct := h.distinct
    held := fun x hx => (h.held x hx).imp id fun hx => (hkeep _).trans hx }

theorem Inv.release (h : Inv s r) {pos : UInt64} {out : τ}
    (hpc : s.consumers k = .release pos out) (hhead : r.head < 2^63) :
    Sound { s with
      mem := { s.mem with
        seq := Function.update s.mem.seq (cap.slot pos) (pos+UInt64.ofNat cap.n) }
      consumers := Function.update s.consumers k (.returned (some out))
      returned := s.returned ++ [(k,pos,out)] } := by
  have hclaim : (s.consumers k).claim = some pos := by rw [hpc]; rfl
  have hholds : Holds s.mem r k pos out .raw := by
    have hok := h.consumers k
    rwa [hpc] at hok
  obtain ⟨t,hpush⟩ := hholds.claimed
  have hword : pos+UInt64.ofNat cap.n = UInt64.ofNat (r.cur (cap.slot pos)+cap.n) := by
    rw [UInt64.ofNat_add,← hholds.pos_eq]
  have hnext : (r.release (cap.slot pos) k hholds.stage).cur (cap.slot pos) =
      r.cur (cap.slot pos)+cap.n := Function.update_self ..
  have hmono : ∀ i, r.cur i ≤ (r.release (cap.slot pos) k hholds.stage).cur i := by
    intro i
    rcases eq_or_ne i (cap.slot pos) with rfl | hne
    · rw [hnext]
      exact Nat.le_add_right ..
    · exact (Function.update_of_ne hne ..).ge
  have hpos := cap.pos
  refine ⟨r.release (cap.slot pos) k hholds.stage,{
    sim := h.sim.release hholds.stage hholds.storage hword
    tail := h.tail
    claims := h.claims
    reading := fun i k' hk' => ?_
    consumers := ?_
    holding := fun k' pos' hk' => ?_
    returned := fun x hx => ?_
    distinct := ?_
    held := fun x hx => ?_ }⟩
  · have hne : i ≠ cap.slot pos := by
      rintro rfl
      cases (Function.update_self ..).symm.trans hk'
    have hold := (Function.update_of_ne hne ..).symm.trans hk'
    have hk : k' ≠ k := by
      rintro rfl
      exact hne (h.reader hclaim hold)
    obtain ⟨pos',hclaim',hslot⟩ := h.reading i k' hold
    exact ⟨pos',by simpa only [Function.update_of_ne hk] using hclaim',hslot⟩
  · refine h.consumers_frame (i := cap.slot pos) (fun k' hk => ?_)
      (fun j hj => ⟨Function.update_of_ne hj ..,Function.update_of_ne hj ..,rfl⟩)
      (fun p hp => .inl ?_) le_rfl rfl trivial
    · rw [hholds.stage]
      simpa using hk.symm
    · rw [hnext]
      rcases hp with hlt | ⟨rfl,-⟩ <;> omega
  · have hk : k' ≠ k := by
      rintro rfl
      simp only [Function.update_self] at hk'
      cases hk'
    exact h.holding k' pos' (by simpa only [Function.update_of_ne hk] using hk')
  · rcases List.mem_append.mp hx with hx | hx
    · obtain ⟨hin,p,u,hp,hlt,hpushed⟩ := h.returned x hx
      exact ⟨hin,p,u,hp,hlt.trans_le (hmono _),hpushed⟩
    · obtain rfl := List.mem_singleton.mp hx
      exact ⟨h.holding k pos hclaim,_,t,hholds.pos_eq,by rw [hnext]; omega,hpush⟩
  · rw [List.map_append]
    refine h.distinct.append (List.nodup_singleton _) fun word hword' hlast => ?_
    obtain ⟨x,hx,rfl⟩ := List.mem_map.mp hword'
    have hsame : x.2.1 = pos := List.mem_singleton.mp hlast
    obtain ⟨-,p,u,hp,hlt,-⟩ := h.returned x hx
    rw [hsame] at hp hlt
    have heq := congrArg UInt64.toNat (hp.symm.trans hholds.pos_eq)
    rw [UInt64.toNat_ofNat',UInt64.toNat_ofNat'] at heq
    have := r.ahead (cap.slot pos)
    have := r.tail_le
    have := cap.addressable
    omega
  · rcases h.held x hx with ⟨v,hv⟩ | hx'
    · exact .inl ⟨v,List.mem_append_left _ hv⟩
    · rcases eq_or_ne x.1 k with hk | hk
      · rw [hk,hclaim] at hx'
        cases hx'
        exact .inl ⟨out,List.mem_append_right _ (by rw [← hk]; exact List.mem_singleton_self _)⟩
      · exact .inr (by simpa only [Function.update_of_ne hk] using hx')

theorem tryPop_inv (h : Inv s r) {a : PopAction} (hhead : s.mem.pushes.length < 2^63)
    (hstep : tryPop s k (s.consumers k) a = some s') : Sound s' := by
  have hok := h.consumers k
  rw [h.sim.claims] at hhead
  rcases tryPop_cases hstep with ⟨hidle,pc,rfl,hpc⟩ | ⟨pos,hpc,htail,rfl⟩ |
    ⟨pos,v,hpc,hv,rfl⟩ | ⟨pos,out,hpc,rfl⟩ | ⟨pos,out,hpc,rfl⟩
  · refine ⟨r,?_⟩
    rcases hpc with rfl | rfl | rfl | ⟨pos,hpc,hseq,rfl⟩
    · exact h.setConsumer hidle rfl trivial
    · exact h.setConsumer hidle rfl ⟨r.tail,h.tail,le_rfl⟩
    · exact h.setConsumer hidle rfl trivial
    · rw [hpc] at hok
      obtain ⟨p,hp,hle⟩ := hok
      exact h.setConsumer hidle rfl ⟨p,hp,h.passed_of_seq hp hle hseq hhead⟩
  · exact h.claimPop hpc htail hhead
  · rw [hpc] at hok
    obtain ⟨w,hh⟩ := hok
    obtain rfl : w = v := by
      cases hh.storage.symm.trans hv
      rfl
    exact ⟨r,h.setBytes (by rw [hpc]; rfl) rfl hh fun _ hm => hm⟩
  · rw [hpc] at hok
    exact ⟨r,h.setBytes (by rw [hpc]; rfl) rfl hok fun _ hm => hm⟩
  · exact h.release hpc hhead

/-! ### Runs -/

/-- Both ends only move forward. -/
theorem step_grows [DecidableEq ι] {a : Action ι κ τ} (hstep : step s a = some s') :
    s.mem.pushes.length ≤ s'.mem.pushes.length ∧ s.claims.length ≤ s'.claims.length := by
  cases a with
  | push t a =>
    obtain ⟨m,pc,hpush,rfl⟩ := step_push hstep
    exact ⟨(tryPush_grows hpush).length_le,le_rfl⟩
  | pop k a =>
    rcases tryPop_cases hstep with ⟨-,pc,rfl,-⟩ | ⟨pos,-,-,rfl⟩ | ⟨pos,v,-,-,rfl⟩ |
      ⟨pos,out,-,rfl⟩ | ⟨pos,out,-,rfl⟩ <;> simp

theorem Sound.step [DecidableEq ι] {a : Action ι κ τ} (h : Sound s)
    (hb : s'.mem.pushes.length < 2^63) (hstep : step s a = some s') : Sound s' := by
  obtain ⟨r,hr⟩ := h
  cases a with
  | push i a => exact step_push_inv hr (by omega) hstep
  | pop k a => exact tryPop_inv hr ((step_grows hstep).1.trans_lt hb) hstep

theorem reachable_sound [DecidableEq ι]
    (h : Transition.Reachable step (start : State cap ι κ τ) s) (hb : claimed s < 2^63) :
    Sound s :=
  h.invariant_of_bound (fun s => s.mem.pushes.length < 2^63) ⟨_,start_inv⟩
    (fun _ _ _ hstep ht => (step_grows hstep).1.trans_lt ht)
    (fun _ _ _ hs ht _ hstep => hs.step ht hstep) ((Nat.le_add_right ..).trans_lt hb)

/-- What the queue promises. A pop that claimed position `p` is paired with the `p`-th push. -/
structure Delivers [DecidableEq ι] (s : State cap ι κ τ) : Prop where
  /-- The positions are claimed by the consumers in order, none twice and none skipped. -/
  in_order : s.claims.map Prod.snd = (List.range s.claims.length).map UInt64.ofNat
  value : ∀ x ∈ s.returned, (x.1,x.2.1) ∈ s.claims ∧
    ∃ t, s.mem.pushes[x.2.1.toNat]? = some (t,x.2.2)
  once : (s.returned.map fun x => x.2.1).Nodup
  held : ∀ x ∈ s.claims, (∃ v, (x.1,x.2,v) ∈ s.returned) ∨ (s.consumers x.1).claim = some x.2
  construct : ∀ t v pos, s.producers t = .construct v pos →
    s.mem.pushes[pos.toNat]? = some (t,v) ∧ s.mem.storage (cap.slot pos) = .raw
  move : ∀ k pos, s.consumers k = .move pos →
    ∃ t v, s.mem.pushes[pos.toNat]? = some (t,v) ∧ s.mem.storage (cap.slot pos) = .live v
  refuse : ∀ t a s', step s (.push t a) = some s' → s'.producers t = .returned false →
    cap.n ≤ s.mem.pushes.length ∧
      ∀ x ∈ s.returned, x.2.1 ≠ UInt64.ofNat (s.mem.pushes.length-cap.n)

/-- In every run with fewer than `2^63` claims the queue keeps its promises. -/
theorem run_delivers [DecidableEq ι] {as : List (Action ι κ τ)}
    (hrun : Transition.run step start as = some s) (hb : claimed s < 2^63) : Delivers s := by
  obtain ⟨r,h⟩ := reachable_sound (Transition.Reachable.run .start hrun) hb
  refine ⟨?_,fun x hx => ?_,h.distinct,h.held,fun t v pos hpc => ?_,fun k pos hpc => ?_,?_⟩
  · have hlength := congrArg List.length h.claims
    rw [List.length_map,List.length_map,List.length_range] at hlength
    rw [hlength]
    exact h.claims
  · obtain ⟨hclaim,p,t,hp,-,hpush⟩ := h.returned x hx
    exact ⟨hclaim,t,getElem?_toNat hb hp hpush⟩
  · have hok := h.sim.producers t
    rw [hpc] at hok
    exact ⟨getElem?_toNat hb hok.pos_eq hok.claimed,hok.storage⟩
  · have hok := h.consumers k
    rw [hpc] at hok
    obtain ⟨v,hh⟩ := hok
    obtain ⟨t,hpush⟩ := hh.claimed
    exact ⟨t,v,getElem?_toNat hb hh.pos_eq hpush,hh.storage⟩
  · intro t a s' hstep hfalse
    obtain ⟨m,pc,hpush,rfl⟩ := step_push hstep
    simp only [Function.update_self] at hfalse
    rw [hfalse] at hpush
    obtain ⟨v,pos,hpc,hneg⟩ := tryPush_false hpush
    exact h.refused hpc hneg hb

/-- Two values are pushed and claimed by two consumers; the one with the later position
hands it back first, and a third push finds the slot of the earlier one not handed back. -/
def crossed : List (Action Bool Bool ℕ) :=
  [.push true (.call 7),.push true .step,.push true .step,.push true .step,.push true .step,
    .push true .step,.push true .step,
    .push false (.call 8),.push false .step,.push false .step,.push false .step,.push false .step,
    .push false .step,.push false .step,
    .pop true .call,.pop true .step,.pop true .step,.pop false .call,.pop false .step,
    .pop true .step,.pop false .step,.pop false .spurious,.pop false .step,.pop false .step,
    .pop false .step,.pop false .step,.pop false .step,
    .push true (.call 9),.push true .step]

theorem run_delivers_crossed : ∃ s : State Capacity.two Bool Bool ℕ,
    Transition.run step start crossed = some s ∧ s.returned = [(false,1,8)] ∧ Delivers s := by
  obtain ⟨s,hrun,hreturned,hb⟩ : ∃ s : State Capacity.two Bool Bool ℕ,
      Transition.run step start crossed = some s ∧ s.returned = [(false,1,8)] ∧ claimed s = 4 :=
    ⟨_,rfl,rfl,rfl⟩
  exact ⟨s,hrun,hreturned,run_delivers hrun (by omega)⟩

end Pop

end MpmcQueue
end Marketlib
