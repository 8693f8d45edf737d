import Marketlib.Transition
import Marketlib.TryPush

/-! The queue with one consumer. The consumer keeps a plain counter, tests its slot for
equality, and hands the slot back before it advances the counter. `calls`, `released` and
`pops` record what happened and are read by no step. -/

namespace Marketlib
namespace MpscQueue

open TicketRing

variable {cap : Capacity} {ι τ : Type*}

/-- Where the consumer is in `try_pop`; the comment names the access that is next. -/
inductive PopPc (τ : Type*)
  | idle
  /-- `tail = consumer_.value.load()`. -/
  | loadTail
  /-- `seq = slot.seq.load()`. -/
  | loadSeq (tail : UInt64)
  /-- `out = std::move(*ptr)`. -/
  | move (tail : UInt64)
  /-- `std::destroy_at(ptr)`. -/
  | destroy (tail : UInt64) (out : τ)
  /-- `slot.seq.store(tail + N)`. -/
  | release (tail : UInt64) (out : τ)
  /-- `consumer_.value.store(tail + 1)`. -/
  | advance (tail : UInt64) (out : τ)
  | returned (out : Option τ)

structure State (cap : Capacity) (ι τ : Type*) where
  mem : Memory cap ι τ
  consumer : UInt64
  producers : ι → PushPc τ
  popper : PopPc τ
  /-- The values each producer has called `try_push` with. -/
  calls : ι → List τ
  /-- Slots handed back so far. -/
  released : ℕ
  /-- The values of the successful `try_pop`s. -/
  pops : List τ

def start : State cap ι τ where
  mem := .init
  consumer := 0
  producers := fun _ => .idle
  popper := .idle
  calls := fun _ => []
  released := 0
  pops := []

inductive PopAction
  | call
  | step

inductive Action (ι τ : Type*)
  | push (t : ι) (a : PushAction τ)
  | pop (a : PopAction)

/-- `try_pop`. Moving from bytes that hold no object has no successor. -/
def tryPop (s : State cap ι τ) : PopPc τ → PopAction → Option (State cap ι τ)
  | .idle, .call => some { s with popper := .loadTail }
  | .returned _, .call => some { s with popper := .loadTail }
  | .loadTail, .step => some { s with popper := .loadSeq s.consumer }
  | .loadSeq tail, .step =>
    let diff := signedDiff (s.mem.seq (cap.slot tail)) (tail+1)
    if diff ≠ 0 then some { s with popper := .returned none }
    else some { s with popper := .move tail }
  | .move tail, .step =>
    match s.mem.storage (cap.slot tail) with
    | .live v => some { s with
        mem := { s.mem with storage := Function.update s.mem.storage (cap.slot tail) .moved }
        popper := .destroy tail v }
    | _ => none
  | .destroy tail out, .step => some { s with
      mem := { s.mem with storage := Function.update s.mem.storage (cap.slot tail) .raw }
      popper := .release tail out }
  | .release tail out, .step => some { s with
      mem := { s.mem with
        seq := Function.update s.mem.seq (cap.slot tail) (tail+UInt64.ofNat cap.n) }
      popper := .advance tail out
      released := s.released+1 }
  | .advance tail out, .step => some { s with
      consumer := tail+1
      popper := .returned (some out)
      pops := s.pops ++ [out] }
  | _, _ => none

def step [DecidableEq ι] (s : State cap ι τ) : Action ι τ → Option (State cap ι τ)
  | .push t a =>
    (tryPush s.mem t (s.producers t) a).map fun (m,pc) => { s with
      mem := m
      producers := Function.update s.producers t pc
      calls := Function.update s.calls t (s.calls t ++ a.value.toList) }
  | .pop a => tryPop s s.popper a

theorem tryPop_cases {s s' : State cap ι τ} {a : PopAction}
    (h : tryPop s s.popper a = some s') :
    (a = .call ∧ (s.popper = .idle ∨ ∃ out, s.popper = .returned out) ∧
      s' = { s with popper := .loadTail }) ∨
    a = .step ∧ ((s.popper = .loadTail ∧ s' = { s with popper := .loadSeq s.consumer }) ∨
    (∃ tail, s.popper = .loadSeq tail ∧ s.mem.seq (cap.slot tail) ≠ tail+1 ∧
      s' = { s with popper := .returned none }) ∨
    (∃ tail, s.popper = .loadSeq tail ∧ s.mem.seq (cap.slot tail) = tail+1 ∧
      s' = { s with popper := .move tail }) ∨
    (∃ tail v, s.popper = .move tail ∧ s.mem.storage (cap.slot tail) = .live v ∧
      s' = { s with
        mem := { s.mem with storage := Function.update s.mem.storage (cap.slot tail) .moved }
        popper := .destroy tail v }) ∨
    (∃ tail out, s.popper = .destroy tail out ∧
      s' = { s with
        mem := { s.mem with storage := Function.update s.mem.storage (cap.slot tail) .raw }
        popper := .release tail out }) ∨
    (∃ tail out, s.popper = .release tail out ∧
      s' = { s with
        mem := { s.mem with
          seq := Function.update s.mem.seq (cap.slot tail) (tail+UInt64.ofNat cap.n) }
        popper := .advance tail out
        released := s.released+1 }) ∨
    ∃ tail out, s.popper = .advance tail out ∧
      s' = { s with
        consumer := tail+1
        popper := .returned (some out)
        pops := s.pops ++ [out] }) := by
  unfold tryPop at h
  split at h
  · next hp => exact .inl ⟨rfl,.inl hp,(Option.some.inj h).symm⟩
  · next hp => exact .inl ⟨rfl,.inr ⟨_,hp⟩,(Option.some.inj h).symm⟩
  · next hp => exact .inr ⟨rfl,.inl ⟨hp,(Option.some.inj h).symm⟩⟩
  · next tail hp =>
    simp only at h
    split_ifs at h with hdiff
    · have hne : s.mem.seq (cap.slot tail) ≠ tail+1 := fun heq => hdiff (signedDiff_eq_zero.mpr heq)
      exact .inr ⟨rfl,.inr (.inl ⟨tail,hp,hne,(Option.some.inj h).symm⟩)⟩
    · have heq := signedDiff_eq_zero.mp (not_not.mp hdiff)
      exact .inr ⟨rfl,.inr (.inr (.inl ⟨tail,hp,heq,(Option.some.inj h).symm⟩))⟩
  · next tail hp =>
    split at h
    · next v hv =>
      exact .inr ⟨rfl,.inr (.inr (.inr (.inl ⟨tail,v,hp,hv,(Option.some.inj h).symm⟩)))⟩
    · cases h
  · next tail out hp =>
    exact .inr ⟨rfl,.inr (.inr (.inr (.inr (.inl ⟨tail,out,hp,(Option.some.inj h).symm⟩))))⟩
  · next tail out hp =>
    exact .inr ⟨rfl,.inr (.inr (.inr (.inr (.inr (.inl ⟨tail,out,hp,(Option.some.inj h).symm⟩)))))⟩
  · next tail out hp =>
    exact .inr ⟨rfl,.inr (.inr (.inr (.inr (.inr (.inr ⟨tail,out,hp,(Option.some.inj h).symm⟩)))))⟩
  · cases h

theorem step_push [DecidableEq ι] {s s' : State cap ι τ} {t : ι} {a : PushAction τ}
    (h : step s (.push t a) = some s') :
    ∃ m pc, tryPush s.mem t (s.producers t) a = some (m,pc) ∧
      s' = { s with
        mem := m
        producers := Function.update s.producers t pc
        calls := Function.update s.calls t (s.calls t ++ a.value.toList) } := by
  simp only [step,Option.map_eq_some_iff] at h
  obtain ⟨⟨m,pc⟩,hstep,rfl⟩ := h
  exact ⟨m,pc,hstep,rfl⟩

/-! ### The invariant -/

/-- Between two pops: everything claimed from the ring was handed back and returned. -/
structure Settled (s : State cap ι τ) (r : Ring cap.n ι Unit) : Prop where
  consumer : s.consumer = UInt64.ofNat r.tail
  released : s.released = r.tail
  pops : s.pops.length = r.tail

/-- The consumer holds the oldest position, whose slot contains `bytes`. -/
structure Taken (s : State cap ι τ) (r : Ring cap.n ι Unit) (tail : UInt64) (v : τ)
    (bytes : Storage τ) : Prop where
  tail_eq : tail = UInt64.ofNat s.released
  pops : s.pops.length = s.released
  next : r.tail = s.released+1
  stage : r.stage (cap.slot tail) = .reading ()
  cur : r.cur (cap.slot tail) = s.released
  claimed : ∃ t, s.mem.pushes[s.released]? = some (t,v)
  storage : s.mem.storage (cap.slot tail) = bytes

def PopOk (s : State cap ι τ) (r : Ring cap.n ι Unit) : PopPc τ → Prop
  | .loadSeq tail => Settled s r ∧ tail = UInt64.ofNat r.tail
  | .move tail => ∃ v, Taken s r tail v (.live v)
  | .destroy tail v => Taken s r tail v .moved
  | .release tail v => Taken s r tail v .raw
  | .advance tail v => tail = UInt64.ofNat s.pops.length ∧ s.released = r.tail ∧
      r.tail = s.pops.length+1 ∧ ∃ t, s.mem.pushes[s.pops.length]? = some (t,v)
  | _ => Settled s r

structure Inv (s : State cap ι τ) (r : Ring cap.n ι Unit) : Prop where
  sim : Sim s.mem s.producers r
  behind : ∀ i, s.released ≤ r.cur i
  pops : s.pops <+: s.mem.pushes.map Prod.snd
  popper : PopOk s r s.popper

/-- The state is one of a ring. -/
def Sound (s : State cap ι τ) : Prop := ∃ r, Inv s r

theorem start_inv : Inv (start : State cap ι τ) .init where
  sim := .init _ fun _ => rfl
  behind := fun _ => Nat.zero_le _
  pops := List.prefix_rfl
  popper := ⟨rfl,rfl,rfl⟩

variable {s s' : State cap ι τ} {r : Ring cap.n ι Unit}

theorem Taken.mono {r' : Ring cap.n ι Unit} {tail : UInt64} {v : τ} {bytes : Storage τ}
    (h : Taken s r tail v bytes) (hu : Undisturbed s.mem s'.mem r r')
    (hreleased : s'.released = s.released) (hpops : s'.pops = s.pops) :
    Taken s' r' tail v bytes := by
  obtain ⟨hstage,hstorage⟩ := hu.reading _ _ h.stage
  obtain ⟨t,hclaimed⟩ := h.claimed
  exact {
    tail_eq := by rw [hreleased]; exact h.tail_eq
    pops := by rw [hreleased,hpops]; exact h.pops
    next := by rw [hu.tail,hreleased]; exact h.next
    stage := hstage
    cur := by rw [hu.cur,hreleased]; exact h.cur
    claimed := ⟨t,by rw [hreleased]; exact prefix_getElem? hu.pushes hclaimed⟩
    storage := hstorage.trans h.storage }

theorem PopOk.mono {r' : Ring cap.n ι Unit} {pc : PopPc τ} (h : PopOk s r pc)
    (hu : Undisturbed s.mem s'.mem r r') (hconsumer : s'.consumer = s.consumer)
    (hreleased : s'.released = s.released) (hpops : s'.pops = s.pops) : PopOk s' r' pc := by
  have hsettled : Settled s r → Settled s' r' := fun hs =>
    ⟨by rw [hconsumer,hu.tail]; exact hs.consumer,by rw [hreleased,hu.tail]; exact hs.released,
      by rw [hpops,hu.tail]; exact hs.pops⟩
  cases pc with
  | loadSeq tail =>
    obtain ⟨hs,htail⟩ := h
    exact ⟨hsettled hs,by rw [hu.tail]; exact htail⟩
  | move tail =>
    obtain ⟨v,ht⟩ := h
    exact ⟨v,ht.mono hu hreleased hpops⟩
  | destroy tail v => exact Taken.mono h hu hreleased hpops
  | release tail v => exact Taken.mono h hu hreleased hpops
  | advance tail v =>
    obtain ⟨htail,hdone,hnext,t,hclaimed⟩ := h
    exact ⟨by rw [hpops]; exact htail,by rw [hreleased,hu.tail]; exact hdone,
      by rw [hpops,hu.tail]; exact hnext,t,by rw [hpops]; exact prefix_getElem? hu.pushes hclaimed⟩
  | _ => exact hsettled h

theorem step_push_inv [DecidableEq ι] (h : Inv s r) {t : ι} {a : PushAction τ}
    (hb : s'.mem.pushes.length ≤ 2^64) (hstep : step s (.push t a) = some s') :
    Sound s' := by
  obtain ⟨m,pc,hpush,rfl⟩ := step_push hstep
  obtain ⟨r',hsim,hu⟩ := h.sim.push hb hpush
  exact ⟨r',{
    sim := hsim
    behind := fun i => by rw [hu.cur]; exact h.behind i
    pops := h.pops.trans (hu.pushes.map _)
    popper := h.popper.mono hu rfl rfl rfl }⟩

/-- With nothing in hand the slot at the tail serves the tail, and is not being read. -/
theorem Inv.tail_slot (h : Inv s r) {tail : UInt64} (hs : Settled s r)
    (htail : tail = UInt64.ofNat r.tail) :
    r.cur (cap.slot tail) = r.tail ∧ ∀ k, r.stage (cap.slot tail) ≠ .reading k := by
  have hbehind := h.behind (cap.slot tail)
  rw [hs.released] at hbehind
  have hslot : r.tail % cap.n = (cap.slot tail).val := by rw [htail,cap.slot_ofNat]
  refine ⟨r.cur_eq_tail hslot hbehind,fun k hk => ?_⟩
  exact absurd ((r.reading_iff _).mp ⟨k,hk⟩) (not_lt.mpr hbehind)

/-- The test for equality: the slot is ready, and for the position the consumer is at. -/
theorem Inv.full_of_seq (h : Inv s r) {tail : UInt64} (hs : Settled s r)
    (htail : tail = UInt64.ofNat r.tail) (hseq : s.mem.seq (cap.slot tail) = tail+1) :
    r.stage (cap.slot tail) = .full := by
  obtain ⟨-,hreading⟩ := h.tail_slot hs htail
  have hslot : r.tail % cap.n = (cap.slot tail).val := by rw [htail,cap.slot_ofNat]
  have hword : UInt64.ofNat (r.shown (cap.slot tail)) = UInt64.ofNat (r.tail+1) := by
    rw [← h.sim.seq,hseq,htail]
    exact (UInt64.ofNat_add r.tail 1).symm
  have hmod : r.shown (cap.slot tail) % cap.n = (r.tail+1) % cap.n := by
    rw [← cap.slot_ofNat,← cap.slot_ofNat,hword]
  rcases (r.shown_next cap.two_le hslot hmod).2 with hfull | ⟨k,hk⟩
  · exact hfull
  · exact absurd hk (hreading k)

/-- Handing the slot back: the ring's position moves on, and so does every bound on it. -/
theorem Inv.release (h : Inv s r) {tail : UInt64} {out : τ} (ht : Taken s r tail out .raw) :
    Inv { s with
      mem := { s.mem with
        seq := Function.update s.mem.seq (cap.slot tail) (tail+UInt64.ofNat cap.n) }
      popper := .advance tail out
      released := s.released+1 } (r.release (cap.slot tail) () ht.stage) := by
  have hword : tail+UInt64.ofNat cap.n = UInt64.ofNat (r.cur (cap.slot tail)+cap.n) := by
    rw [UInt64.ofNat_add,ht.cur,ht.tail_eq]
  refine {
    sim := h.sim.release ht.stage ht.storage hword
    behind := fun j => ?_
    pops := h.pops
    popper := ⟨by rw [ht.pops]; exact ht.tail_eq,ht.next.symm,?_,?_⟩ }
  · have hj := h.behind j
    have hcur := ht.cur
    rcases eq_or_ne j (cap.slot tail) with rfl | hne
    · have hnext : (r.release (cap.slot tail) () ht.stage).cur (cap.slot tail) =
          r.cur (cap.slot tail)+cap.n := Function.update_self ..
      have := cap.pos
      change s.released+1 ≤ _
      omega
    · have hkeep : (r.release (cap.slot tail) () ht.stage).cur j = r.cur j :=
        Function.update_of_ne hne ..
      have := r.cur_ne hne
      change s.released+1 ≤ _
      omega
  · rw [ht.pops]
    exact ht.next
  · rw [ht.pops]
    exact ht.claimed

theorem tryPop_inv (h : Inv s r) {a : PopAction} (hstep : tryPop s s.popper a = some s') :
    Sound s' := by
  have hok := h.popper
  rcases tryPop_cases hstep with ⟨-,hp,rfl⟩ | ⟨-,⟨hp,rfl⟩ | ⟨tail,hp,hne,rfl⟩ | ⟨tail,hp,heq,rfl⟩ |
    ⟨tail,v,hp,hv,rfl⟩ | ⟨tail,out,hp,rfl⟩ | ⟨tail,out,hp,rfl⟩ | ⟨tail,out,hp,rfl⟩⟩
  · have hs : Settled s r := by
      rcases hp with hp | ⟨out,hp⟩
      · rwa [hp] at hok
      · rwa [hp] at hok
    exact ⟨r,{ h with popper := ⟨hs.consumer,hs.released,hs.pops⟩ }⟩
  · rw [hp] at hok
    have hs : Settled s r := hok
    exact ⟨r,{ h with popper := ⟨⟨hs.consumer,hs.released,hs.pops⟩,hs.consumer⟩ }⟩
  · rw [hp] at hok
    obtain ⟨hs,-⟩ := hok
    exact ⟨r,{ h with popper := ⟨hs.consumer,hs.released,hs.pops⟩ }⟩
  · rw [hp] at hok
    obtain ⟨hs,htail⟩ := hok
    have hfull := h.full_of_seq hs htail heq
    have hcur := (h.tail_slot hs htail).1
    obtain ⟨t,v,hclaimed,hlive⟩ := h.sim.full _ hfull
    refine ⟨r.claimPop (cap.slot tail) () hfull hcur,{
      sim := h.sim.claimPop hfull hcur
      behind := h.behind
      pops := h.pops
      popper := ⟨v,{
        tail_eq := by rw [htail]; exact congrArg _ hs.released.symm
        pops := hs.pops.trans hs.released.symm
        next := congrArg (·+1) hs.released.symm
        stage := Function.update_self ..
        cur := hcur.trans hs.released.symm
        claimed := ⟨t,?_⟩
        storage := hlive }⟩ }⟩
    rw [hcur,← hs.released] at hclaimed
    exact hclaimed
  · rw [hp] at hok
    obtain ⟨w,ht⟩ := hok
    have hw : w = v := by
      have := ht.storage.symm.trans hv
      cases this
      rfl
    rw [hw] at ht
    exact ⟨r,{
      sim := h.sim.setRead ht.stage .moved
      behind := h.behind
      pops := h.pops
      popper := { ht with storage := Function.update_self .. } }⟩
  · rw [hp] at hok
    have ht : Taken s r tail out .moved := hok
    exact ⟨r,{
      sim := h.sim.setRead ht.stage .raw
      behind := h.behind
      pops := h.pops
      popper := { ht with storage := Function.update_self .. } }⟩
  · rw [hp] at hok
    exact ⟨_,h.release hok⟩
  · rw [hp] at hok
    obtain ⟨htail,hreleased,hnext,t,hclaimed⟩ := hok
    have hlength : (s.pops ++ [out]).length = r.tail := by
      rw [List.length_append,List.length_singleton]
      exact hnext.symm
    refine ⟨r,{ h with
      pops := prefix_concat h.pops (by rw [List.getElem?_map,hclaimed]; rfl)
      popper := ⟨?_,hreleased,hlength⟩ }⟩
    change tail+1 = _
    rw [htail,hnext]
    exact (UInt64.ofNat_add s.pops.length 1).symm

/-! ### Program order -/

theorem tryPop_frame {a : PopAction} (hstep : tryPop s s.popper a = some s') :
    s'.mem.pushes = s.mem.pushes ∧ s'.mem.head = s.mem.head ∧ s'.producers = s.producers ∧
      s'.calls = s.calls := by
  rcases tryPop_cases hstep with ⟨-,-,rfl⟩ | ⟨-,⟨-,rfl⟩ | ⟨_,-,-,rfl⟩ | ⟨_,-,-,rfl⟩ | ⟨_,_,-,-,rfl⟩ |
    ⟨_,_,-,rfl⟩ | ⟨_,_,-,rfl⟩ | ⟨_,_,-,rfl⟩⟩ <;> exact ⟨rfl,rfl,rfl,rfl⟩

/-- What a step inside `try_pop` returns, and what it has then popped. -/
theorem tryPop_pops (hstep : tryPop s s.popper .step = some s') :
    (∃ v, s'.popper = .returned (some v) ∧ s'.pops = s.pops ++ [v]) ∨
      (∀ v, s'.popper ≠ .returned (some v)) ∧ s'.pops = s.pops := by
  rcases tryPop_cases hstep with ⟨ha,-,-⟩ | ⟨-,⟨-,rfl⟩ | ⟨_,-,-,rfl⟩ | ⟨_,-,-,rfl⟩ | ⟨_,_,-,-,rfl⟩ |
    ⟨_,_,-,rfl⟩ | ⟨_,_,-,rfl⟩ | ⟨_,out,-,rfl⟩⟩
  · cases ha
  · exact .inr ⟨nofun,rfl⟩
  · exact .inr ⟨nofun,rfl⟩
  · exact .inr ⟨nofun,rfl⟩
  · exact .inr ⟨nofun,rfl⟩
  · exact .inr ⟨nofun,rfl⟩
  · exact .inr ⟨nofun,rfl⟩
  · exact .inl ⟨out,rfl,rfl⟩

theorem tryPop_call (hstep : tryPop s s.popper .call = some s') :
    s' = { s with popper := .loadTail } := by
  rcases tryPop_cases hstep with ⟨-,-,h⟩ | ⟨ha,-⟩
  · exact h
  · cases ha

section Order

variable [DecidableEq ι]

/-- The values `t` has claimed a position for, in the order of the positions. -/
def claimedBy (pushes : List (ι × τ)) (t : ι) : List τ :=
  (pushes.filter fun push => push.1 = t).map Prod.snd

theorem claimedBy_concat (pushes : List (ι × τ)) (t u : ι) (v : τ) :
    claimedBy (pushes ++ [(t,v)]) u =
      if t = u then claimedBy pushes u ++ [v] else claimedBy pushes u := by
  by_cases h : t = u <;> simp [claimedBy,h]

theorem mem_claimedBy {pushes : List (ι × τ)} {t : ι} {v : τ} :
    v ∈ claimedBy pushes t ↔ (t,v) ∈ pushes := by
  simp [claimedBy]

/-- What a producer has claimed, and then the value it is about to claim for, are among its
calls in their order. -/
def Ordered (s : State cap ι τ) : Prop :=
  ∀ t, (claimedBy s.mem.pushes t ++ (s.producers t).pending.toList).Sublist (s.calls t)

theorem step_push_ordered {t : ι} {a : PushAction τ} (h : Ordered s)
    (hstep : step s (.push t a) = some s') : Ordered s' := by
  obtain ⟨m,pc,hpush,rfl⟩ := step_push hstep
  intro u
  have hu := h u
  rcases eq_or_ne t u with rfl | hne
  · simp only [Function.update_self]
    rcases tryPush_pushes hpush with ⟨hsame,hsub⟩ | ⟨v,hgrow,hold,hnew⟩
    · rw [hsame]
      refine ((List.Sublist.refl _).append hsub).trans ?_
      rw [← List.append_assoc]
      exact hu.append (.refl _)
    · rw [hgrow,hnew,claimedBy_concat,if_pos rfl]
      rw [hold] at hu
      simpa using hu.trans (List.sublist_append_left ..)
  · simp only [Function.update_of_ne hne.symm]
    rcases tryPush_pushes hpush with ⟨hsame,-⟩ | ⟨v,hgrow,-,-⟩
    · rwa [hsame]
    · rwa [hgrow,claimedBy_concat,if_neg hne]

theorem step_ordered {a : Action ι τ} (h : Ordered s) (hstep : step s a = some s') :
    Ordered s' := by
  cases a with
  | push t a => exact step_push_ordered h hstep
  | pop a =>
    obtain ⟨hpushes,-,hproducers,hcalls⟩ := tryPop_frame hstep
    intro t
    rw [hpushes,hproducers,hcalls]
    exact h t

/-- A producer past its claim has its value among the claims. -/
def Claimed (s : State cap ι τ) : Prop :=
  ∀ t v pos, (s.producers t).claim = some (v,pos) → (t,v) ∈ s.mem.pushes

theorem step_claimed {a : Action ι τ} (h : Claimed s) (hstep : step s a = some s') :
    Claimed s' := by
  cases a with
  | push t a =>
    obtain ⟨m,pc,hpush,rfl⟩ := step_push hstep
    intro u v pos hv
    rcases eq_or_ne u t with rfl | hne
    · simp only [Function.update_self] at hv
      exact tryPush_claim hpush (h u) hv
    · simp only [Function.update_of_ne hne] at hv
      exact (tryPush_grows hpush).subset (h u v pos hv)
  | pop a =>
    obtain ⟨hpushes,-,hproducers,-⟩ := tryPop_frame hstep
    intro t v pos hv
    rw [hproducers] at hv
    rw [hpushes]
    exact h t v pos hv

theorem step_pushes {a : Action ι τ} (hstep : step s a = some s') :
    s.mem.pushes <+: s'.mem.pushes := by
  cases a with
  | push t a =>
    obtain ⟨m,pc,hpush,rfl⟩ := step_push hstep
    exact tryPush_grows hpush
  | pop a => exact (tryPop_frame hstep).1 ▸ List.prefix_rfl

theorem step_inv {a : Action ι τ} (h : Inv s r) (hb : s'.mem.pushes.length ≤ 2^64)
    (hstep : step s a = some s') : Sound s' := by
  cases a with
  | push t a => exact step_push_inv h hb hstep
  | pop a => exact tryPop_inv h hstep

/-! ### Steps of a caller -/

theorem step_call {t : ι} {v : τ} (hstep : step s (.push t (.call v)) = some s') :
    s' = { s with
      producers := Function.update s.producers t (.loadHead v)
      calls := Function.update s.calls t (s.calls t ++ [v]) } := by
  obtain ⟨m,pc,hpush,rfl⟩ := step_push hstep
  rcases tryPush_cases hpush with ⟨w,ha,-,rfl,rfl⟩ | ⟨ha,-⟩ | ⟨_,_,ha,-⟩ | ⟨_,_,ha,-⟩ | ⟨_,_,ha,-⟩ |
    ⟨_,_,ha,-⟩
  · cases ha
    rfl
  all_goals cases ha

/-- A step inside a call: the call goes on, claims its position, or returns. -/
theorem step_inCall {t : ι} {a : PushAction τ} (ha : a.value = none)
    (hstep : step s (.push t a) = some s') :
    s'.calls = s.calls ∧ s'.pops = s.pops ∧ s'.popper = s.popper ∧
    (∀ u, u ≠ t → s'.producers u = s.producers u) ∧
    ∃ x, (s.producers t).current = some x ∧
      (s'.mem.pushes = s.mem.pushes ∧ (s'.producers t).current = some x ∨
      s'.mem.pushes = s.mem.pushes ++ [(t,x)] ∧ (s.producers t).pending = some x ∧
        (s'.producers t).current = some x ∨
      s'.mem.pushes = s.mem.pushes ∧ (s.producers t).pending = some x ∧
        s'.producers t = .returned false ∨
      s'.mem.pushes = s.mem.pushes ∧ (∃ pos, (s.producers t).claim = some (x,pos)) ∧
        s'.producers t = .returned true) := by
  obtain ⟨m,pc,hpush,rfl⟩ := step_push hstep
  obtain ⟨x,hx,hcases⟩ := tryPush_current hpush ha
  refine ⟨?_,rfl,rfl,fun u hu => Function.update_of_ne hu ..,x,hx,?_⟩
  · rw [ha]
    exact Function.update_eq_self_iff.mpr (List.append_nil _)
  · simpa only [Function.update_self] using hcases

/-! ### Runs -/

theorem start_ordered : Ordered (start : State cap ι τ) := fun _ => List.Sublist.refl _

theorem reachable_ordered (h : Transition.Reachable step (start : State cap ι τ) s) :
    Ordered s := by
  refine Transition.ReachableBy.invariant start_ordered ?_ h
  exact fun s a t hs _ hstep => step_ordered hs hstep

theorem claimedBy_sublist (h : Transition.Reachable step (start : State cap ι τ) s) (t : ι) :
    (claimedBy s.mem.pushes t).Sublist (s.calls t) :=
  (List.sublist_append_left ..).trans (reachable_ordered h t)

/-- A value is claimed under a producer's name only after that producer's own call. -/
theorem calls_of_mem_pushes (h : Transition.Reachable step (start : State cap ι τ) s) {t : ι}
    {v : τ} (hmem : (t,v) ∈ s.mem.pushes) : v ∈ s.calls t :=
  (claimedBy_sublist h t).subset (mem_claimedBy.mpr hmem)

theorem reachable_claimed (h : Transition.Reachable step (start : State cap ι τ) s) :
    Claimed s := by
  refine Transition.ReachableBy.invariant (fun _ _ _ hv => by cases hv) ?_ h
  exact fun s a t hs _ hstep => step_claimed hs hstep

/-- The value that the consumer has taken out of its slot. -/
def PopPc.held : PopPc τ → Option τ
  | .destroy _ out | .release _ out | .advance _ out => some out
  | _ => none

/-- No value is pushed by two calls. -/
structure Distinct (s : State cap ι τ) : Prop where
  nodup : ∀ t, (s.calls t).Nodup
  caller : ∀ t u v, v ∈ s.calls t → v ∈ s.calls u → t = u

omit [DecidableEq ι] in
theorem Distinct.congr (hd : Distinct s) (hcalls : s'.calls = s.calls) : Distinct s' :=
  ⟨hcalls ▸ hd.nodup,hcalls ▸ hd.caller⟩

theorem mem_calls_call {t u : ι} {v w : τ} (hstep : step s (.push t (.call v)) = some s') :
    w ∈ s'.calls u ↔ w ∈ s.calls u ∨ u = t ∧ w = v := by
  rw [step_call hstep]
  rcases eq_or_ne u t with rfl | hne
  · simp
  · simp [hne]

/-- A call that pushes a value no call has pushed. -/
theorem Distinct.call (hd : Distinct s) {t : ι} {v : τ} (hnew : ∀ u, v ∉ s.calls u)
    (hstep : step s (.push t (.call v)) = some s') : Distinct s' where
  nodup u := by
    rw [step_call hstep]
    rcases eq_or_ne u t with rfl | hne
    · simp only [Function.update_self]
      exact List.nodup_append.mpr ⟨hd.nodup u,List.nodup_singleton _,fun w hw x hx heq =>
        hnew u (by rwa [heq,List.mem_singleton.mp hx] at hw)⟩
    · simpa [hne] using hd.nodup u
  caller a b w ha hb := by
    rcases (mem_calls_call hstep).mp ha with ha | ⟨rfl,rfl⟩
    · rcases (mem_calls_call hstep).mp hb with hb | ⟨-,rfl⟩
      · exact hd.caller a b w ha hb
      · exact absurd ha (hnew a)
    · rcases (mem_calls_call hstep).mp hb with hb | ⟨rfl,-⟩
      · exact absurd hb (hnew b)
      · rfl

theorem Distinct.claims (hd : Distinct s)
    (h : Transition.Reachable step (start : State cap ι τ) s) :
    (s.mem.pushes.map Prod.snd).Nodup := by
  rw [List.Nodup,List.pairwise_map,List.pairwise_iff_forall_sublist]
  rintro ⟨t,v⟩ ⟨u,w⟩ hsub rfl
  have hmem (p : ι × τ) (hp : p ∈ [(t,v),(u,v)]) : (p.1,p.2) ∈ s.mem.pushes := hsub.subset hp
  obtain rfl := hd.caller t u v (calls_of_mem_pushes h (hmem (t,v) (by simp)))
    (calls_of_mem_pushes h (hmem (u,v) (by simp)))
  have htwice := (hsub.filter fun push => push.1 = t).map Prod.snd
  have hpair : ([(t,v),(t,v)].filter fun push => push.1 = t).map Prod.snd = [v,v] := by simp
  rw [hpair] at htwice
  exact List.not_nodup_pair v ((hd.nodup t).sublist (htwice.trans (claimedBy_sublist h t)))

/-- What a call has not claimed a position for is not in the queue. -/
theorem Distinct.unclaimed (hd : Distinct s)
    (h : Transition.Reachable step (start : State cap ι τ) s) {t : ι} {v : τ}
    (hpending : (s.producers t).pending = some v) : v ∉ s.mem.pushes.map Prod.snd := by
  intro hmem
  obtain ⟨⟨u,w⟩,hclaim,rfl⟩ := List.mem_map.mp hmem
  have hordered := reachable_ordered h t
  rw [hpending] at hordered
  obtain rfl := hd.caller u t w (calls_of_mem_pushes h hclaim) (hordered.subset (by simp))
  exact List.disjoint_of_nodup_append ((hd.nodup u).sublist hordered)
    (mem_claimedBy.mpr hclaim) (by simp)

/-- The values that the consumer has taken out of their slots. -/
def State.taken (s : State cap ι τ) : List τ := s.pops ++ s.popper.held.toList

omit [DecidableEq ι] in
/-- A value is taken where the consumer moves it out of its slot. -/
theorem tryPop_taken {a : PopAction} (hstep : tryPop s s.popper a = some s') :
    (∃ tail v, s.popper = .move tail ∧ s'.popper = .destroy tail v ∧ s'.taken = s.taken ++ [v]) ∨
      (∀ tail v, s'.popper ≠ .destroy tail v) ∧ s'.taken = s.taken := by
  rcases tryPop_cases hstep with ⟨-,hp,rfl⟩ | ⟨-,⟨hp,rfl⟩ | ⟨_,hp,-,rfl⟩ | ⟨_,hp,-,rfl⟩ |
    ⟨tail,v,hp,-,rfl⟩ | ⟨_,_,hp,rfl⟩ | ⟨_,_,hp,rfl⟩ | ⟨_,_,hp,rfl⟩⟩
  · refine .inr ⟨nofun,?_⟩
    rcases hp with hp | ⟨out,hp⟩ <;> simp [State.taken,hp,PopPc.held]
  · exact .inr ⟨nofun,by simp [State.taken,hp,PopPc.held]⟩
  · exact .inr ⟨nofun,by simp [State.taken,hp,PopPc.held]⟩
  · exact .inr ⟨nofun,by simp [State.taken,hp,PopPc.held]⟩
  · exact .inl ⟨tail,v,hp,rfl,by simp [State.taken,hp,PopPc.held]⟩
  · exact .inr ⟨nofun,by simp [State.taken,hp,PopPc.held]⟩
  · exact .inr ⟨nofun,by simp [State.taken,hp,PopPc.held]⟩
  · exact .inr ⟨nofun,by simp [State.taken,hp,PopPc.held]⟩

omit [DecidableEq ι] in
theorem tryPop_taken_eq {a : PopAction} (hstep : tryPop s s.popper a = some s')
    (hnot : ∀ tail v, s'.popper ≠ .destroy tail v) : s'.taken = s.taken := by
  rcases tryPop_taken hstep with ⟨tail,v,-,hnow,-⟩ | ⟨-,htaken⟩
  · exact absurd hnow (hnot tail v)
  · exact htaken

omit [DecidableEq ι] in
/-- The value in hand stays there until it is returned. -/
theorem tryPop_hand {a : PopAction} {v : τ} (hheld : s.popper.held = some v)
    (hstep : tryPop s s.popper a = some s') :
    (∀ tail w, s'.popper ≠ .destroy tail w) ∧
      (s'.popper.held = some v ∨ s'.popper = .returned (some v)) := by
  rcases tryPop_cases hstep with ⟨-,hp,-⟩ | ⟨-,⟨hp,-⟩ | ⟨_,hp,-,-⟩ | ⟨_,hp,-,-⟩ |
    ⟨tail,w,hp,-,-⟩ | ⟨_,_,hp,rfl⟩ | ⟨_,_,hp,rfl⟩ | ⟨_,_,hp,rfl⟩⟩
  · rcases hp with hp | ⟨out,hp⟩ <;> rw [hp] at hheld <;> cases hheld
  · rw [hp] at hheld
    cases hheld
  · rw [hp] at hheld
    cases hheld
  · rw [hp] at hheld
    cases hheld
  · rw [hp] at hheld
    cases hheld
  · rw [hp] at hheld
    exact ⟨nofun,.inl hheld⟩
  · rw [hp] at hheld
    exact ⟨nofun,.inl hheld⟩
  · rw [hp] at hheld
    cases hheld
    exact ⟨nofun,.inr rfl⟩

omit [DecidableEq ι] in
/-- With nothing in hand the consumer takes a value or returns none. -/
theorem tryPop_empty {a : PopAction} (hheld : s.popper.held = none)
    (hstep : tryPop s s.popper a = some s') : (∃ tail v, s'.popper = .destroy tail v) ∨
      s'.popper.held = none ∧ ∀ v, s'.popper ≠ .returned (some v) := by
  rcases tryPop_cases hstep with ⟨-,-,rfl⟩ | ⟨-,⟨-,rfl⟩ | ⟨_,-,-,rfl⟩ | ⟨_,-,-,rfl⟩ |
    ⟨tail,w,-,-,rfl⟩ | ⟨_,_,hp,-⟩ | ⟨_,_,hp,-⟩ | ⟨_,_,hp,-⟩⟩
  · exact .inr ⟨rfl,nofun⟩
  · exact .inr ⟨rfl,nofun⟩
  · exact .inr ⟨rfl,nofun⟩
  · exact .inr ⟨rfl,nofun⟩
  · exact .inl ⟨tail,w,rfl⟩
  all_goals
    rw [hp] at hheld
    cases hheld

omit [DecidableEq ι] in
/-- Values are taken in the order of the claims. -/
theorem Inv.taken (h : Inv s r) : s.taken <+: s.mem.pushes.map Prod.snd := by
  have hok := h.popper
  have hheld {tail : UInt64} {v : τ} {bytes : Storage τ} (ht : Taken s r tail v bytes) :
      s.pops ++ [v] <+: s.mem.pushes.map Prod.snd := by
    obtain ⟨t,hclaimed⟩ := ht.claimed
    refine prefix_concat h.pops ?_
    rw [ht.pops,List.getElem?_map,hclaimed]
    rfl
  cases hp : s.popper with
  | destroy tail v =>
    rw [hp] at hok
    simpa [State.taken,hp,PopPc.held] using hheld hok
  | release tail v =>
    rw [hp] at hok
    simpa [State.taken,hp,PopPc.held] using hheld hok
  | advance tail v =>
    rw [hp] at hok
    obtain ⟨-,-,-,t,hclaimed⟩ := hok
    have hnext : s.pops ++ [v] <+: s.mem.pushes.map Prod.snd :=
      prefix_concat h.pops (by rw [List.getElem?_map,hclaimed]; rfl)
    simpa [State.taken,hp,PopPc.held] using hnext
  | _ => simpa [State.taken,hp,PopPc.held] using h.pops

/-- Whatever comes out of the queue was pushed, also when the counters have wrapped. -/
structure Held (s : State cap ι τ) : Prop where
  storage : ∀ i v, s.mem.storage i = .live v → v ∈ s.mem.pushes.map Prod.snd
  popper : ∀ v, s.popper.held = some v → v ∈ s.mem.pushes.map Prod.snd
  pops : ∀ v ∈ s.pops, v ∈ s.mem.pushes.map Prod.snd

omit [DecidableEq ι] in
theorem start_held : Held (start : State cap ι τ) where
  storage := fun _ _ h => by cases h
  popper := fun _ h => by cases h
  pops := fun _ h => by cases h

theorem step_push_held {t : ι} {a : PushAction τ} (hclaimed : Claimed s) (h : Held s)
    (hstep : step s (.push t a) = some s') : Held s' := by
  obtain ⟨m,pc,hpush,rfl⟩ := step_push hstep
  have hgrows := ((tryPush_grows hpush).map Prod.snd).subset
  refine ⟨fun i v hv => ?_,fun v hv => hgrows (h.popper v hv),fun v hv => hgrows (h.pops v hv)⟩
  rcases tryPush_cases hpush with ⟨_,-,-,rfl,-⟩ | ⟨-,rfl,-⟩ | ⟨_,_,-,-,-,rfl,-⟩ |
    ⟨w,pos,-,-,rfl,-⟩ | ⟨w,pos,-,hpc,rfl,-⟩ | ⟨_,_,-,-,rfl,-⟩
  · exact h.storage i v hv
  · exact h.storage i v hv
  · exact hgrows (h.storage i v hv)
  · rcases eq_or_ne i (cap.slot pos) with rfl | hne
    · simp only [Function.update_self] at hv
      cases hv
    · simp only [Function.update_of_ne hne] at hv
      exact h.storage i v hv
  · rcases eq_or_ne i (cap.slot pos) with rfl | hne
    · simp only [Function.update_self] at hv
      cases hv
      exact List.mem_map_of_mem (f := Prod.snd) (hclaimed t v pos (by rw [hpc]; rfl))
    · simp only [Function.update_of_ne hne] at hv
      exact h.storage i v hv
  · exact h.storage i v hv

omit [DecidableEq ι] in
theorem tryPop_held {a : PopAction} (h : Held s) (hstep : tryPop s s.popper a = some s') :
    Held s' := by
  have hempty : ∀ (i j : Fin cap.n) (v : τ) (bytes : Storage τ), (∀ w, bytes ≠ .live w) →
      Function.update s.mem.storage j bytes i = .live v → v ∈ s.mem.pushes.map Prod.snd := by
    intro i j v bytes hbytes hv
    rcases eq_or_ne i j with rfl | hne
    · rw [Function.update_self] at hv
      exact absurd hv (hbytes v)
    · rw [Function.update_of_ne hne] at hv
      exact h.storage i v hv
  rcases tryPop_cases hstep with ⟨-,-,rfl⟩ | ⟨-,⟨-,rfl⟩ | ⟨_,-,-,rfl⟩ | ⟨_,-,-,rfl⟩ |
    ⟨tail,v,-,hlive,rfl⟩ | ⟨tail,out,hp,rfl⟩ | ⟨tail,out,hp,rfl⟩ | ⟨tail,out,hp,rfl⟩⟩
  · exact ⟨h.storage,nofun,h.pops⟩
  · exact ⟨h.storage,nofun,h.pops⟩
  · exact ⟨h.storage,nofun,h.pops⟩
  · exact ⟨h.storage,nofun,h.pops⟩
  · refine ⟨fun i w => hempty i _ w _ (fun _ hw => by cases hw),fun w hw => ?_,h.pops⟩
    cases hw
    exact h.storage _ v hlive
  · refine ⟨fun i w => hempty i _ w _ (fun _ hw => by cases hw),fun w hw => ?_,h.pops⟩
    exact h.popper w (by rw [hp]; exact hw)
  · exact ⟨h.storage,fun w hw => h.popper w (by rw [hp]; exact hw),h.pops⟩
  · refine ⟨h.storage,nofun,fun w hw => ?_⟩
    rcases List.mem_append.mp hw with hw | hw
    · exact h.pops w hw
    · rw [List.mem_singleton.mp hw]
      exact h.popper out (by rw [hp]; rfl)

theorem reachable_held (h : Transition.Reachable step (start : State cap ι τ) s) : Held s := by
  induction h with
  | start => exact start_held
  | @next s t a hs _ hstep ih =>
    cases a with
    | push u a => exact step_push_held (reachable_claimed hs) ih hstep
    | pop a => exact tryPop_held ih hstep

/-- Up to `2^64` claims every reachable state is a state of the ring. -/
theorem reachable_sound (h : Transition.Reachable step (start : State cap ι τ) s)
    (hb : s.mem.pushes.length ≤ 2^64) : Sound s := by
  refine Transition.ReachableBy.invariant_of_bound (fun s => s.mem.pushes.length ≤ 2^64)
    ⟨_,start_inv⟩ (fun s a t hstep ht => (step_pushes hstep).length_le.trans ht) ?_ h hb
  intro s a t hs ht _ hstep
  obtain ⟨r,hr⟩ := hs
  exact step_inv hr ht hstep

end Order

/-- The slot the consumer looks at is one short of ready, or ready. -/
theorem Inv.diff_le (h : Inv s r) {tail : UInt64} (hp : s.popper = .loadSeq tail) :
    ¬0 < signedDiff (s.mem.seq (cap.slot tail)) (tail+1) := by
  have hok := h.popper
  rw [hp] at hok
  obtain ⟨hs,htail⟩ := hok
  obtain ⟨hcur,-⟩ := h.tail_slot hs htail
  have hnext : tail+1 = UInt64.ofNat (r.tail+1) := by
    rw [htail]
    exact (UInt64.ofNat_add r.tail 1).symm
  have hshown : r.shown (cap.slot tail) = r.tail ∨ r.shown (cap.slot tail) = r.tail+1 := by
    rw [← hcur]
    unfold Ring.shown
    split <;> simp
  rw [h.sim.seq,hnext]
  rcases hshown with hshown | hshown
  · rw [hshown,Int64.lt_iff_toInt_lt,signedDiff_toInt]
    have hone : ((r.tail : ℤ)-(r.tail+1 : ℕ)) = -1 := by omega
    rw [hone]
    decide
  · rw [hshown,signedDiff_eq_zero.mpr rfl]
    decide

/-- The oldest position not handed back is still served. -/
theorem Inv.oldest (h : Inv s r) : ∃ i, r.cur i = s.released := by
  have hsettled : s.released = r.tail → ∃ i, r.cur i = s.released := by
    intro heq
    have hbehind := h.behind (cap.slot (UInt64.ofNat r.tail))
    rw [heq] at hbehind ⊢
    exact ⟨_,r.cur_eq_tail (cap.slot_ofNat _).symm hbehind⟩
  have hok := h.popper
  cases hp : s.popper with
  | loadSeq tail =>
    rw [hp] at hok
    exact hsettled hok.1.released
  | move tail =>
    rw [hp] at hok
    obtain ⟨v,ht⟩ := hok
    exact ⟨_,ht.cur⟩
  | destroy tail v =>
    rw [hp] at hok
    exact ⟨_,Taken.cur hok⟩
  | release tail v =>
    rw [hp] at hok
    exact ⟨_,Taken.cur hok⟩
  | advance tail v =>
    rw [hp] at hok
    exact hsettled hok.2.1
  | _ =>
    rw [hp] at hok
    exact hsettled (Settled.released hok)

/-- A refusal happens only while `N` claimed positions are held back. -/
theorem Inv.refused (h : Inv s r) {t : ι} {v : τ} {pos : UInt64}
    (hpc : s.producers t = .loadSeq v pos)
    (hneg : signedDiff (s.mem.seq (cap.slot pos)) pos < 0)
    (hb : s.mem.pushes.length+cap.n ≤ 2^63) : s.mem.pushes.length = s.released+cap.n := by
  have hclaims := h.sim.claims
  have htail := r.tail_le
  have hpos := cap.pos
  obtain ⟨-,hcur⟩ := h.sim.refused hpc hneg (by omega) (by omega)
  have hbehind := h.behind (cap.slot pos)
  have hahead : r.head ≤ s.released+cap.n := by
    obtain ⟨i,hi⟩ := h.oldest
    rw [← hi]
    exact r.behind i
  omega

/-- A position is claimed only after the one a round before was handed back. -/
theorem Inv.claimed_released (h : Inv s r) {t : ι} {v : τ} {pos : UInt64}
    (hpc : s.producers t = .construct v pos) :
    s.mem.storage (cap.slot pos) = .raw ∧
      ∃ p, pos = UInt64.ofNat p ∧ s.mem.pushes[p]? = some (t,v) ∧ p < s.released+cap.n := by
  have hok := h.sim.producers t
  rw [hpc] at hok
  refine ⟨hok.storage,r.cur (cap.slot pos),hok.pos_eq,hok.claimed,?_⟩
  obtain ⟨i,hi⟩ := h.oldest
  have hlt := r.cur_lt_head (i := cap.slot pos) (by rw [hok.stage]; simp)
  have := r.behind i
  omega

theorem step_returned_false [DecidableEq ι] {t : ι} {a : PushAction τ}
    (hstep : step s (.push t a) = some s') (hfalse : s'.producers t = .returned false) :
    ∃ v pos, s.producers t = .loadSeq v pos ∧ signedDiff (s.mem.seq (cap.slot pos)) pos < 0 := by
  obtain ⟨m,pc,hpush,rfl⟩ := step_push hstep
  simp only [Function.update_self] at hfalse
  rw [hfalse] at hpush
  exact tryPush_false hpush

/-! ### What a failed `try_pop` leaves behind -/

/-- The position whose slot the consumer is about to test. -/
def PopPc.testing : PopPc τ → Option UInt64
  | .loadSeq tail => some tail
  | _ => none

/-- The values of the positions that are published and not popped. -/
def ready (s : State cap ι τ) : List τ :=
  s.mem.pushes.zipIdx.filterMap fun (push,j) =>
    if s.pops.length ≤ j ∧ s.mem.seq (cap.slot (UInt64.ofNat j)) = UInt64.ofNat (j+1)
      then some push.2 else none

theorem mem_ready {v : τ} : v ∈ ready s ↔ ∃ t j, s.pops.length ≤ j ∧
    s.mem.pushes[j]? = some (t,v) ∧
    s.mem.seq (cap.slot (UInt64.ofNat j)) = UInt64.ofNat (j+1) := by
  simp only [ready,List.mem_filterMap,List.mem_zipIdx_iff_getElem?,Prod.exists,
    Option.ite_none_right_eq_some,Option.some.injEq]
  constructor
  · rintro ⟨t,w,j,hj,⟨hle,hseq⟩,rfl⟩
    exact ⟨t,j,hle,hj,hseq⟩
  · rintro ⟨t,j,hle,hj,hseq⟩
    exact ⟨t,v,j,hj,⟨hle,hseq⟩,rfl⟩

theorem tryPop_none (hstep : tryPop s s.popper .step = some s')
    (hnone : s'.popper = .returned none) :
    ∃ tail, s.popper.testing = some tail ∧ s.mem.seq (cap.slot tail) ≠ tail+1 := by
  rcases tryPop_cases hstep with ⟨ha,-,-⟩ | ⟨-,⟨-,rfl⟩ | ⟨tail,hp,hne,-⟩ | ⟨_,-,-,rfl⟩ |
    ⟨_,_,-,-,rfl⟩ | ⟨_,_,-,rfl⟩ | ⟨_,_,-,rfl⟩ | ⟨_,_,-,rfl⟩⟩
  · cases ha
  · cases hnone
  · exact ⟨tail,by rw [hp]; rfl,hne⟩
  all_goals cases hnone

theorem tryPop_failed (hstep : tryPop s s.popper .step = some s') {tail : UInt64}
    (hp : s.popper.testing = some tail) (hne : s.mem.seq (cap.slot tail) ≠ tail+1) :
    s'.popper = .returned none := by
  rcases tryPop_cases hstep with ⟨ha,-,-⟩ | ⟨-,⟨hpc,-⟩ | ⟨_,-,-,rfl⟩ | ⟨_,hpc,heq,-⟩ |
    ⟨_,_,hpc,-⟩ | ⟨_,_,hpc,-⟩ | ⟨_,_,hpc,-⟩ | ⟨_,_,hpc,-⟩⟩
  · cases ha
  · rw [hpc] at hp
    cases hp
  · rfl
  · rw [hpc] at hp
    cases hp
    exact absurd heq hne
  all_goals
    rw [hpc] at hp
    cases hp

/-- Where the consumer tests a slot, each position not popped is published, or held by the
producer that claimed it. -/
theorem Inv.published (h : Inv s r) {tail : UInt64} (hp : s.popper.testing = some tail) {t : ι}
    {v : τ} {j : ℕ} (hj : s.mem.pushes[j]? = some (t,v)) (hle : s.pops.length ≤ j) :
    s.mem.seq (cap.slot (UInt64.ofNat j)) = UInt64.ofNat (j+1) ∨
      ∃ pos, (s.producers t).claim = some (v,pos) := by
  have hs : Settled s r := by
    have hok := h.popper
    cases hpc : s.popper with
    | loadSeq tail =>
      rw [hpc] at hok
      exact hok.1
    | _ => simp [hpc,PopPc.testing] at hp
  have hlt : j < r.head := h.sim.claims ▸ (List.getElem?_eq_some_iff.mp hj).1
  rw [hs.pops] at hle
  generalize hi : cap.slot (UInt64.ofNat j) = i
  have hslot : j % cap.n = i.val := by rw [← hi,cap.slot_ofNat]
  have hbehind := r.behind i
  have hahead := r.ahead i
  have hcur : r.cur i = j := r.cur_near hslot (by omega) (by omega)
  rw [← hcur] at hj hle hlt ⊢
  rw [h.sim.seq]
  cases hstage : r.stage i with
  | free => exact absurd ((r.free_iff i).mp hstage) (not_le.mpr hlt)
  | writing u =>
    obtain ⟨w,pos,hclaim,hpos⟩ := h.sim.writing i u hstage
    have howner := h.sim.claimed hclaim
    rw [hpos,hj] at howner
    cases howner
    exact .inr ⟨pos,hclaim⟩
  | full => exact .inl (by rw [r.shown_of_full hstage])
  | reading k => exact absurd ((r.reading_iff i).mp ⟨k,hstage⟩) (not_lt.mpr hle)

/-- The next access of `t` refuses its value. -/
def State.refusing (s : State cap ι τ) (t : ι) : Bool :=
  match s.producers t with
  | .loadSeq _ pos => decide (signedDiff (s.mem.seq (cap.slot pos)) pos < 0)
  | _ => false

/-- The next access of the consumer takes a value out of its slot. -/
def PopPc.moving : PopPc τ → Bool
  | .move _ => true
  | _ => false

/-- The next access of the consumer finds its slot not ready. -/
def State.missing (s : State cap ι τ) : Bool :=
  s.popper.testing.any fun tail => s.mem.seq (cap.slot tail) ≠ tail+1

theorem step_refusing [DecidableEq ι] {t : ι} {a : PushAction τ}
    (hstep : step s (.push t a) = some s') (hfalse : s'.producers t = .returned false) :
    s.refusing t = true := by
  obtain ⟨v,pos,hpc,hneg⟩ := step_returned_false hstep hfalse
  rw [State.refusing,hpc]
  exact decide_eq_true hneg

theorem step_refuses [DecidableEq ι] {t : ι} {a : PushAction τ} (ha : a.value = none)
    (hrefusing : s.refusing t = true) (hstep : step s (.push t a) = some s') :
    s'.producers t = .returned false ∧ ∃ v, (s.producers t).pending = some v := by
  obtain ⟨m,pc,hpush,rfl⟩ := step_push hstep
  rw [State.refusing] at hrefusing
  split at hrefusing
  · next v pos hpc =>
    rw [hpc] at hpush
    simp only [Function.update_self]
    refine ⟨?_,v,by rw [hpc]; rfl⟩
    cases a with
    | call w => cases ha
    | step =>
      rw [tryPush_refused (of_decide_eq_true hrefusing)] at hpush
      cases hpush
      rfl
    | spurious => cases hpush
  · cases hrefusing

theorem tryPop_moving {a : PopAction} (hmoving : s.popper.moving = true)
    (hstep : tryPop s s.popper a = some s') : ∃ tail v, s'.popper = .destroy tail v := by
  rcases tryPop_cases hstep with ⟨-,hp,-⟩ | ⟨-,⟨hp,-⟩ | ⟨_,hp,-,-⟩ | ⟨_,hp,-,-⟩ |
    ⟨tail,w,-,-,rfl⟩ | ⟨_,_,hp,-⟩ | ⟨_,_,hp,-⟩ | ⟨_,_,hp,-⟩⟩
  · rcases hp with hp | ⟨out,hp⟩ <;> rw [hp] at hmoving <;> cases hmoving
  · rw [hp] at hmoving
    cases hmoving
  · rw [hp] at hmoving
    cases hmoving
  · rw [hp] at hmoving
    cases hmoving
  · exact ⟨tail,w,rfl⟩
  all_goals
    rw [hp] at hmoving
    cases hmoving

theorem tryPop_missing (hstep : tryPop s s.popper .step = some s')
    (hnone : s'.popper = .returned none) : s.missing = true := by
  obtain ⟨tail,htesting,hne⟩ := tryPop_none hstep hnone
  rw [State.missing,htesting]
  exact decide_eq_true hne

/-- A consumer that finds nothing while no producer is behind its claim has popped all that
was claimed. -/
theorem Inv.drained (h : Inv s r) (hmissing : s.missing = true)
    (hidle : ∀ t, (s.producers t).claim = none) : s.pops = s.mem.pushes.map Prod.snd := by
  refine h.pops.eq_of_length_le (le_of_not_gt fun hlt => ?_)
  rw [List.length_map] at hlt
  obtain ⟨tail,htesting,hne⟩ := Option.any_eq_true _ _ |>.mp hmissing
  have htail : tail = UInt64.ofNat s.pops.length := by
    have hok := h.popper
    cases hpc : s.popper with
    | loadSeq tail' =>
      rw [hpc] at hok htesting
      cases htesting
      rw [hok.1.pops]
      exact hok.2
    | _ => simp [hpc,PopPc.testing] at htesting
  rcases h.published htesting (List.getElem?_eq_getElem hlt) le_rfl with hseq | ⟨pos,hclaim⟩
  · refine of_decide_eq_true hne ?_
    rw [htail,hseq]
    exact UInt64.ofNat_add s.pops.length 1
  · exact absurd (hidle _) (by rw [hclaim]; simp)

/-! ### Calls that nothing interrupts -/

section Alone

variable [DecidableEq ι]

theorem run_load {t : ι} {v : τ} (hpc : s.producers t = .loadHead v)
    (hroom : s.mem.seq (cap.slot s.mem.head) = s.mem.head) :
    Transition.run step s (List.replicate 2 (.push t .step)) = some { s with
      producers := Function.update s.producers t (.compareExchange v s.mem.head) } := by
  have hzero : signedDiff s.mem.head s.mem.head = 0 := signedDiff_eq_zero.mpr rfl
  simp [List.replicate,step,tryPush,hpc,hroom,hzero,PushAction.value]

/-- From a compare-exchange that finds its value to the end of the construction. -/
theorem run_claim {t : ι} {v : τ} {pos : UInt64} (hpc : s.producers t = .compareExchange v pos)
    (hhead : s.mem.head = pos) :
    Transition.run step s (List.replicate 3 (.push t .step)) = some { s with
      mem := { s.mem with
        head := pos+1
        storage := Function.update s.mem.storage (cap.slot pos) (.live v)
        pushes := s.mem.pushes ++ [(t,v)] }
      producers := Function.update s.producers t (.publish v pos) } := by
  simp [List.replicate,step,tryPush,hpc,hhead,PushAction.value]

/-- From the first access to the end of the construction. -/
theorem run_construct {t : ι} {v : τ} (hpc : s.producers t = .loadHead v)
    (hroom : s.mem.seq (cap.slot s.mem.head) = s.mem.head) :
    Transition.run step s (List.replicate 5 (.push t .step)) = some { s with
      mem := { s.mem with
        head := s.mem.head+1
        storage := Function.update s.mem.storage (cap.slot s.mem.head) (.live v)
        pushes := s.mem.pushes ++ [(t,v)] }
      producers := Function.update s.producers t (.publish v s.mem.head) } := by
  refine (Transition.run_trans (run_load hpc hroom)
    (run_claim (Function.update_self ..) rfl)).trans ?_
  simp only [Function.update_idem]

theorem step_publish {t : ι} {v : τ} {pos : UInt64} (hpc : s.producers t = .publish v pos) :
    step s (.push t .step) = some { s with
      mem := { s.mem with seq := Function.update s.mem.seq (cap.slot pos) (pos+1) }
      producers := Function.update s.producers t (.returned true) } := by
  simp [step,tryPush,hpc,PushAction.value]

theorem run_look (hpc : s.popper = .loadTail)
    (hready : s.mem.seq (cap.slot s.consumer) = s.consumer+1) :
    Transition.run step s (List.replicate 2 (.pop .step)) =
      some { s with popper := .move s.consumer } := by
  have hzero : signedDiff (s.consumer+1) (s.consumer+1) = 0 := signedDiff_eq_zero.mpr rfl
  simp [List.replicate,step,tryPop,hpc,hready,hzero]

/-- From the move to the hand-over of the slot. -/
theorem run_take {tail : UInt64} {v : τ} (hpc : s.popper = .move tail)
    (hlive : s.mem.storage (cap.slot tail) = .live v) :
    Transition.run step s (List.replicate 3 (.pop .step)) = some { s with
      mem := { s.mem with
        seq := Function.update s.mem.seq (cap.slot tail) (tail+UInt64.ofNat cap.n)
        storage := Function.update s.mem.storage (cap.slot tail) .raw }
      popper := .advance tail v
      released := s.released+1 } := by
  simp [List.replicate,step,tryPop,hpc,hlive]

theorem step_advance {tail : UInt64} {v : τ} (hpc : s.popper = .advance tail v) :
    step s (.pop .step) = some { s with
      consumer := tail+1
      popper := .returned (some v)
      pops := s.pops ++ [v] } := by
  simp [step,tryPop,hpc]

theorem step_push_call {t : ι} {v : τ}
    (hidle : s.producers t = .idle ∨ ∃ ok, s.producers t = .returned ok) :
    step s (.push t (.call v)) = some { s with
      producers := Function.update s.producers t (.loadHead v)
      calls := Function.update s.calls t (s.calls t ++ [v]) } := by
  rcases hidle with hidle | ⟨ok,hidle⟩ <;> simp [step,tryPush,hidle,PushAction.value]

theorem step_pop_call (hidle : s.popper = .idle ∨ ∃ out, s.popper = .returned out) :
    step s (.pop .call) = some { s with popper := .loadTail } := by
  rcases hidle with hidle | ⟨out,hidle⟩ <;> simp [step,tryPop,hidle]

def pushAlone (t : ι) (v : τ) : List (Action ι τ) :=
  .push t (.call v) :: (List.replicate 2 (.push t .step) ++
    (List.replicate 3 (.push t .step) ++ [.push t .step]))

def pushed (s : State cap ι τ) (t : ι) (v : τ) : State cap ι τ :=
  { s with
    mem := {
      head := s.mem.head+1
      seq := Function.update s.mem.seq (cap.slot s.mem.head) (s.mem.head+1)
      storage := Function.update s.mem.storage (cap.slot s.mem.head) (.live v)
      pushes := s.mem.pushes ++ [(t,v)] }
    producers := Function.update s.producers t (.returned true)
    calls := Function.update s.calls t (s.calls t ++ [v]) }

theorem run_pushAlone {t : ι} {v : τ}
    (hidle : s.producers t = .idle ∨ ∃ ok, s.producers t = .returned ok)
    (hroom : s.mem.seq (cap.slot s.mem.head) = s.mem.head) :
    Transition.run step s (pushAlone t v) = some (pushed s t v) := by
  rw [pushAlone,Transition.run_cons,step_push_call hidle,Option.bind_some]
  refine Transition.run_trans (run_load (Function.update_self ..) hroom)
    (Transition.run_trans (run_claim (Function.update_self ..) rfl) ?_)
  rw [Transition.run_cons,step_publish (Function.update_self ..)]
  simp only [Function.update_idem]
  rfl

/-- The accesses of a call into a free slot; the last one publishes it. -/
theorem run_rest {t : ι} {v : τ} (hroom : s.mem.seq (cap.slot s.mem.head) = s.mem.head) :
    ∃ q, Transition.run step { s with
        producers := Function.update s.producers t (.loadHead v)
        calls := Function.update s.calls t (s.calls t ++ [v]) }
          (List.replicate 5 (.push t .step)) = some q ∧
      (∀ ok, q.producers t ≠ .returned ok) ∧ step q (.push t .step) = some (pushed s t v) := by
  refine ⟨_,run_construct (Function.update_self ..) hroom,by simp,?_⟩
  rw [step_publish (Function.update_self ..)]
  simp only [Function.update_idem]
  rfl

def popAlone : List (Action ι τ) :=
  .pop .call :: (List.replicate 2 (.pop .step) ++ (List.replicate 3 (.pop .step) ++ [.pop .step]))

def popped (s : State cap ι τ) (v : τ) : State cap ι τ :=
  { s with
    mem := { s.mem with
      seq := Function.update s.mem.seq (cap.slot s.consumer) (s.consumer+UInt64.ofNat cap.n)
      storage := Function.update s.mem.storage (cap.slot s.consumer) .raw }
    consumer := s.consumer+1
    popper := .returned (some v)
    released := s.released+1
    pops := s.pops ++ [v] }

theorem run_popAlone {v : τ} (hidle : s.popper = .idle ∨ ∃ out, s.popper = .returned out)
    (hready : s.mem.seq (cap.slot s.consumer) = s.consumer+1)
    (hlive : s.mem.storage (cap.slot s.consumer) = .live v) :
    Transition.run step s popAlone = some (popped s v) := by
  rw [popAlone,Transition.run_cons,step_pop_call hidle,Option.bind_some]
  exact Transition.run_trans (run_look rfl hready)
    (Transition.run_trans (run_take rfl hlive) (by rw [Transition.run_cons,step_advance rfl]; rfl))

end Alone

/-- Into an empty ring: what is pushed is what the consumer finds. -/
theorem pushed_ready [DecidableEq ι] (heq : s.consumer = s.mem.head) (t : ι) (v : τ) :
    (pushed s t v).mem.seq (cap.slot (pushed s t v).consumer) = (pushed s t v).consumer+1 ∧
      (pushed s t v).mem.storage (cap.slot (pushed s t v).consumer) = .live v := by
  simp [pushed,heq]

/-- Nothing is in the ring after `k` pushes and pops, and neither `t` nor the consumer is in
a call. -/
structure Calm [DecidableEq ι] (k : ℕ) (t : ι) (s : State cap ι τ) : Prop where
  head : s.mem.head = UInt64.ofNat k
  consumer : s.consumer = UInt64.ofNat k
  seq : ∀ j < cap.n, s.mem.seq (cap.slot (UInt64.ofNat (k+j))) = UInt64.ofNat (k+j)
  producer : s.producers t = .idle ∨ ∃ ok, s.producers t = .returned ok
  popper : s.popper = .idle ∨ ∃ out, s.popper = .returned out

section Calm

variable [DecidableEq ι] {k : ℕ} {t : ι}

theorem start_calm : Calm 0 t (start : State cap ι τ) where
  head := rfl
  consumer := rfl
  seq := fun j hj => by
    rw [Nat.zero_add]
    refine congrArg UInt64.ofNat ?_
    rw [cap.slot_ofNat,Nat.mod_eq_of_lt hj]
  producer := .inl rfl
  popper := .inl rfl

theorem Calm.room (h : Calm k t s) : s.mem.seq (cap.slot s.mem.head) = s.mem.head := by
  rw [h.head]
  exact h.seq 0 cap.pos

theorem Calm.next (h : Calm k t s) (v : τ) : Calm (k+1) t (popped (pushed s t v) v) := by
  have hsucc : UInt64.ofNat k+1 = UInt64.ofNat (k+1) := (UInt64.ofNat_add k 1).symm
  refine {
    head := by simp only [popped,pushed,h.head,hsucc]
    consumer := by simp only [popped,pushed,h.consumer,hsucc]
    seq := fun j hj => ?_
    producer := .inr ⟨true,Function.update_self ..⟩
    popper := .inr ⟨some v,rfl⟩ }
  simp only [popped,pushed,h.head,h.consumer,Function.update_idem]
  by_cases hlast : j+1 = cap.n
  · have hround : k+1+j = k+cap.n := by omega
    have hslot : cap.slot (UInt64.ofNat (k+cap.n)) = cap.slot (UInt64.ofNat k) := by
      refine Fin.ext ?_
      rw [cap.slot_ofNat,cap.slot_ofNat,Nat.add_mod_right]
    rw [hround,hslot,Function.update_self]
    exact (UInt64.ofNat_add k cap.n).symm
  · have hne : cap.slot (UInt64.ofNat (k+1+j)) ≠ cap.slot (UInt64.ofNat k) := by
      intro heq
      have hmod := congrArg Fin.val heq
      rw [cap.slot_ofNat,cap.slot_ofNat] at hmod
      exact mod_ne_of_near (by omega : k < k+1+j) (by omega) hmod.symm
    rw [Function.update_of_ne hne,show k+1+j = k+(j+1) by omega]
    exact h.seq (j+1) (by omega)

end Calm

/-- `t` alone has pushed `k` values, and none is popped. -/
structure Filling [DecidableEq ι] (k : ℕ) (t : ι) (s : State cap ι τ) : Prop where
  head : s.mem.head = UInt64.ofNat k
  free : ∀ j, k ≤ j → j < cap.n → s.mem.seq (cap.slot (UInt64.ofNat j)) = UInt64.ofNat j
  filled : 0 < k → s.mem.seq (cap.slot 0) = 1
  producer : s.producers t = .idle ∨ ∃ ok, s.producers t = .returned ok

section Filling

variable [DecidableEq ι] {k : ℕ} {t : ι}

theorem start_filling : Filling 0 t (start : State cap ι τ) where
  head := rfl
  free := fun j _ hj => by
    refine congrArg UInt64.ofNat ?_
    rw [cap.slot_ofNat,Nat.mod_eq_of_lt hj]
  filled := fun h => absurd h (lt_irrefl _)
  producer := .inl rfl

theorem Filling.room (h : Filling k t s) (hk : k < cap.n) :
    s.mem.seq (cap.slot s.mem.head) = s.mem.head := by
  rw [h.head]
  exact h.free k le_rfl hk

theorem Filling.next (h : Filling k t s) (hk : k < cap.n) (v : τ) :
    Filling (k+1) t (pushed s t v) := by
  have hsucc : UInt64.ofNat k+1 = UInt64.ofNat (k+1) := (UInt64.ofNat_add k 1).symm
  have hslot {j : ℕ} (hj : j < cap.n) (hne : j ≠ k) :
      cap.slot (UInt64.ofNat j) ≠ cap.slot (UInt64.ofNat k) := by
    intro heq
    have hmod := congrArg Fin.val heq
    rw [cap.slot_ofNat,cap.slot_ofNat,Nat.mod_eq_of_lt hj,Nat.mod_eq_of_lt hk] at hmod
    exact hne hmod
  refine {
    head := by simp only [pushed,h.head,hsucc]
    free := fun j hj hlt => ?_
    filled := fun _ => ?_
    producer := .inr ⟨true,Function.update_self ..⟩ }
  · simp only [pushed,h.head]
    rw [Function.update_of_ne (hslot hlt (by omega))]
    exact h.free j (by omega) hlt
  · simp only [pushed,h.head,hsucc]
    rcases Nat.eq_zero_or_pos k with rfl | hpos
    · exact Function.update_self ..
    · have hne := hslot cap.pos hpos.ne
      rw [show UInt64.ofNat 0 = 0 from rfl] at hne
      rw [Function.update_of_ne hne]
      exact h.filled hpos

/-- With a value in each slot the next call is refused. -/
theorem Filling.refuses (h : Filling cap.n t s) (hfull : signedDiff 1 (UInt64.ofNat cap.n) < 0)
    (v : τ) : ∃ q q', Transition.run step { s with
        producers := Function.update s.producers t (.loadHead v)
        calls := Function.update s.calls t (s.calls t ++ [v]) }
          (List.replicate 1 (.push t .step)) = some q ∧
      (∀ ok, q.producers t ≠ .returned ok) ∧ step q (.push t .step) = some q' ∧
      q'.producers t = .returned false := by
  have hslot : cap.slot s.mem.head = cap.slot 0 := by
    refine Fin.ext ?_
    rw [h.head,cap.slot_ofNat,show (0 : UInt64) = UInt64.ofNat 0 from rfl,cap.slot_ofNat,
      Nat.mod_self,Nat.zero_mod]
  have hneg : signedDiff (s.mem.seq (cap.slot s.mem.head)) s.mem.head < 0 := by
    rw [hslot,h.filled cap.pos,h.head]
    exact hfull
  refine ⟨{ s with
    producers := Function.update s.producers t (.loadSeq v s.mem.head)
    calls := Function.update s.calls t (s.calls t ++ [v]) },{ s with
    producers := Function.update s.producers t (.returned false)
    calls := Function.update s.calls t (s.calls t ++ [v]) },?_,by simp,?_,Function.update_self ..⟩
  · simp [List.replicate,step,tryPush,PushAction.value]
  · simp [step,tryPush_refused hneg,PushAction.value]

end Filling

/-- Nothing is in the ring of two slots after `k` pushes and pops, and producer `true` is
stopped at `stale`. -/
structure Quiet (k : ℕ) (stale : PushPc τ) (s : State Capacity.two Bool τ) : Prop where
  head : s.mem.head = UInt64.ofNat k
  consumer : s.consumer = UInt64.ofNat k
  seq : ∀ i, s.mem.seq i = UInt64.ofNat (if i.val = k % 2 then k else k+1)
  claims : s.mem.pushes.length = k
  released : s.released = k
  stopped : s.producers true = stale
  producer : s.producers false = .idle ∨ ∃ ok, s.producers false = .returned ok
  popper : s.popper = .idle ∨ ∃ out, s.popper = .returned out

variable {k : ℕ} {stale : PushPc τ} {q : State Capacity.two Bool τ}

theorem Quiet.room (h : Quiet k stale q) :
    q.mem.seq (Capacity.two.slot q.mem.head) = q.mem.head := by
  rw [h.seq,h.head,Capacity.two.slot_ofNat]
  exact congrArg _ (if_pos rfl)

theorem Quiet.ready (h : Quiet k stale q) (v : τ) :
    (pushed q false v).mem.seq (Capacity.two.slot (pushed q false v).consumer) =
        (pushed q false v).consumer+1 ∧
      (pushed q false v).mem.storage (Capacity.two.slot (pushed q false v).consumer) = .live v :=
  pushed_ready (h.consumer.trans h.head.symm) false v

theorem Quiet.next (h : Quiet k stale q) (v : τ) :
    Quiet (k+1) stale (popped (pushed q false v) v) := by
  have hsucc : UInt64.ofNat k+1 = UInt64.ofNat (k+1) := (UInt64.ofNat_add k 1).symm
  have hround : UInt64.ofNat k+UInt64.ofNat Capacity.two.n = UInt64.ofNat (k+2) :=
    (UInt64.ofNat_add k 2).symm
  refine {
    head := by simp only [popped,pushed,h.head,hsucc]
    consumer := by simp only [popped,pushed,h.consumer,hsucc]
    seq := fun i => ?_
    claims := by simp only [popped,pushed,List.length_append,h.claims,List.length_singleton]
    released := by simp only [popped,pushed,h.released]
    stopped := h.stopped
    producer := .inr ⟨true,rfl⟩
    popper := .inr ⟨some v,rfl⟩ }
  have hslot : (Capacity.two.slot (UInt64.ofNat k)).val = k % 2 := Capacity.two.slot_ofNat k
  have hi : i.val < 2 := i.isLt
  simp only [popped,pushed,h.head,h.consumer,Function.update_idem]
  rcases eq_or_ne i (Capacity.two.slot (UInt64.ofNat k)) with rfl | hne
  · rw [Function.update_self,hround,hslot,if_neg (by omega)]
  · have hne' : i.val ≠ k % 2 := fun heq => hne (Fin.ext (heq.trans hslot.symm))
    rw [Function.update_of_ne hne,h.seq,if_neg hne',if_pos (by omega)]

/-- Rounds of one push and one pop. -/
def rounds (v : τ) (n : ℕ) : List (Action Bool τ) :=
  (List.replicate n (pushAlone false v ++ popAlone)).flatten

theorem Quiet.rounds (h : Quiet k stale q) (v : τ) (n : ℕ) :
    ∃ q', Transition.run step q (rounds v n) = some q' ∧ Quiet (k+n) stale q' := by
  refine Transition.run_rounds (fun k q => Quiet k stale q) (fun k q hq => ?_) n h
  obtain ⟨hready,hlive⟩ := hq.ready v
  exact ⟨_,Transition.run_trans (run_pushAlone hq.producer hq.room)
    (run_popAlone hq.popper hready hlive),hq.next v⟩

/-! ### The queue -/

/-- With fewer than `2^63` claims the values come out in the order of the claims, those of
one producer in the order of its calls; a slot is constructed into only after it was handed
back, and the consumer never sees a later round. With `N` fewer claims than that, a refusal
means that `N` claimed positions are held back. -/
theorem run_fifo [DecidableEq ι] {as : List (Action ι τ)}
    (hrun : Transition.run step start as = some s) (hb : s.mem.pushes.length < 2^63) :
    s.pops <+: s.mem.pushes.map Prod.snd ∧
    (∀ t, (claimedBy (s.mem.pushes.take s.pops.length) t).Sublist (s.calls t)) ∧
    (∀ t v pos, s.producers t = .construct v pos → s.mem.storage (cap.slot pos) = .raw ∧
      ∃ p, pos = UInt64.ofNat p ∧ s.mem.pushes[p]? = some (t,v) ∧ p < s.released+cap.n) ∧
    (∀ tail, s.popper = .loadSeq tail →
      ¬0 < signedDiff (s.mem.seq (cap.slot tail)) (tail+1)) ∧
    (s.mem.pushes.length+cap.n ≤ 2^63 → ∀ t a s', step s (.push t a) = some s' →
      s'.producers t = .returned false → s.mem.pushes.length = s.released+cap.n) := by
  have hreach := Transition.Reachable.run .start hrun
  obtain ⟨r,h⟩ := reachable_sound hreach (by omega)
  refine ⟨h.pops,fun t => ?_,fun t v pos => h.claimed_released,fun tail => h.diff_le,?_⟩
  · exact (((List.take_sublist ..).filter _).map _).trans (claimedBy_sublist hreach t)
  · intro hroom t a s' hstep hfalse
    obtain ⟨v,pos,hpc,hneg⟩ := step_returned_false hstep hfalse
    exact h.refused hpc hneg hroom

/-- Two producers fill the smallest ring, the second claim is published first, one value
is popped and a third push finds the ring full. -/
def filled : List (Action Bool ℕ) :=
  [.push true (.call 7),.push true .step,.push true .step,.push false (.call 8),
    .push false .step,.push false .step,.push true .step,.push false .spurious,
    .push false .step,.push false .step,.push false .step,.push false .step,.push false .step,
    .pop .call,.pop .step,.pop .step,.push true .step,.push true .step,.push true .step,
    .push true (.call 9),.push true .step,
    .pop .call,.pop .step,.pop .step,.pop .step]

theorem run_fifo_filled : ∃ s : State Capacity.two Bool ℕ,
    Transition.run step start filled = some s ∧ s.mem.pushes = [(true,7),(false,8)] ∧
    (∀ t a s', step s (.push t a) = some s' →
      s'.producers t = .returned false → s.mem.pushes.length = s.released+2) := by
  obtain ⟨s,hrun,hpushes⟩ : ∃ s : State Capacity.two Bool ℕ,
      Transition.run step start filled = some s ∧ s.mem.pushes = [(true,7),(false,8)] :=
    ⟨_,rfl,rfl⟩
  have hlength : s.mem.pushes.length = 2 := by rw [hpushes]; rfl
  exact ⟨s,hrun,hpushes,(run_fifo hrun (by omega)).2.2.2.2 (by rw [hlength]; decide)⟩

/-- Producer `true` loads the counter and is stopped before it looks at its slot. When it
goes on after `2^63-1` claims, all popped, it is refused by an empty queue. -/
theorem stale_refusal : ∃ (s s' : State Capacity.two Bool Unit),
    Transition.run step start
      ([.push true (.call ()),.push true .step] ++ rounds () (2^63-1)) = some s ∧
    s.mem.pushes.length = 2^63-1 ∧ s.released = 2^63-1 ∧
    step s (.push true .step) = some s' ∧ s'.producers true = .returned false := by
  obtain ⟨q,hrun,hq⟩ : ∃ q : State Capacity.two Bool Unit,
      Transition.run step start [.push true (.call ()),.push true .step] = some q ∧
      Quiet 0 (.loadSeq () 0) q := by
    refine ⟨_,rfl,{
      head := rfl
      consumer := rfl
      seq := by decide
      claims := rfl
      released := rfl
      stopped := rfl
      producer := .inl rfl
      popper := .inl rfl }⟩
  obtain ⟨s,hrun',hs⟩ := hq.rounds () (2^63-1)
  have hseq : s.mem.seq (Capacity.two.slot 0) = UInt64.ofNat (2^63) := by
    rw [hs.seq]
    decide
  have hneg : signedDiff (s.mem.seq (Capacity.two.slot 0)) 0 < 0 := by
    rw [hseq]
    decide
  have hrefuse : step s (.push true .step) =
      some { s with producers := Function.update s.producers true (.returned false) } := by
    rw [step,hs.stopped,tryPush_refused hneg]
    simp [PushAction.value]
  exact ⟨s,_,Transition.run_trans hrun hrun',by rw [hs.claims,Nat.zero_add],
    by rw [hs.released,Nat.zero_add],hrefuse,rfl⟩

end MpscQueue
end Marketlib
