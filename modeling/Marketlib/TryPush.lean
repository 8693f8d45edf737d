import Marketlib.RingIndex
import Marketlib.TicketRing

/-! `try_push`, which the two queues share word for word: claim a slot by a
compare-exchange on the producer counter, construct the value, publish the slot. One
atomic access a step; the construction of the value takes two. The memory refines a ring
of unbounded positions. -/

namespace Marketlib

open TicketRing

/-- The bytes of a slot: no object, an object under construction, an object, an object
that was moved from. -/
inductive Storage (τ : Type*)
  | raw
  | constructing
  | live (v : τ)
  | moved

/-- What producers share. `pushes` records the claims in their order and is read by no step. -/
structure Memory (cap : Capacity) (ι τ : Type*) where
  head : UInt64
  seq : Fin cap.n → UInt64
  storage : Fin cap.n → Storage τ
  pushes : List (ι × τ)

def Memory.init {cap : Capacity} {ι τ : Type*} : Memory cap ι τ :=
  ⟨0,fun i => UInt64.ofNat i,fun _ => .raw,[]⟩

/-- Where a producer is in `try_push`; the comment names the access that is next. -/
inductive PushPc (τ : Type*)
  | idle
  /-- `head = producer_.value.load()`. -/
  | loadHead (v : τ)
  /-- `seq = slot.seq.load()`. -/
  | loadSeq (v : τ) (pos : UInt64)
  /-- `compare_exchange_weak(head, head + 1)`. -/
  | compareExchange (v : τ) (pos : UInt64)
  /-- `construct_at` begins. -/
  | construct (v : τ) (pos : UInt64)
  /-- `construct_at` ends. -/
  | constructing (v : τ) (pos : UInt64)
  /-- `slot.seq.store(head + 1)`. -/
  | publish (v : τ) (pos : UInt64)
  | returned (ok : Bool)

/-- The value of a call that has not claimed a position. -/
def PushPc.pending {τ : Type*} : PushPc τ → Option τ
  | .loadHead v => some v
  | .loadSeq v _ => some v
  | .compareExchange v _ => some v
  | _ => none

/-- The value and the position of a producer between its claim and its publication. -/
def PushPc.claim {τ : Type*} : PushPc τ → Option (τ × UInt64)
  | .construct v pos => some (v,pos)
  | .constructing v pos => some (v,pos)
  | .publish v pos => some (v,pos)
  | _ => none

/-- The value of a call in progress. -/
def PushPc.current {τ : Type*} (pc : PushPc τ) : Option τ := pc.pending <|> pc.claim.map Prod.fst

inductive PushAction (τ : Type*)
  | call (v : τ)
  | step
  /-- A spurious failure of the weak compare-exchange. -/
  | spurious

def PushAction.value {τ : Type*} : PushAction τ → Option τ
  | .call v => some v
  | _ => none

section Step

variable {cap : Capacity} {ι τ : Type*}

def tryPush (m : Memory cap ι τ) (t : ι) :
    PushPc τ → PushAction τ → Option (Memory cap ι τ × PushPc τ)
  | .idle, .call v => some (m,.loadHead v)
  | .returned _, .call v => some (m,.loadHead v)
  | .loadHead v, .step => some (m,.loadSeq v m.head)
  | .loadSeq v pos, .step =>
    let diff := signedDiff (m.seq (cap.slot pos)) pos
    if diff = 0 then some (m,.compareExchange v pos)
    else if diff < 0 then some (m,.returned false)
    else some (m,.loadHead v)
  | .compareExchange v pos, .step =>
    if m.head = pos then
      some ({ m with head := pos+1, pushes := m.pushes ++ [(t,v)] },.construct v pos)
    else some (m,.loadSeq v m.head)
  | .compareExchange v _, .spurious => some (m,.loadSeq v m.head)
  | .construct v pos, .step =>
    some ({ m with storage := Function.update m.storage (cap.slot pos) .constructing },
      .constructing v pos)
  | .constructing v pos, .step =>
    some ({ m with storage := Function.update m.storage (cap.slot pos) (.live v) },.publish v pos)
  | .publish _ pos, .step =>
    some ({ m with seq := Function.update m.seq (cap.slot pos) (pos+1) },.returned true)
  | _, _ => none

theorem tryPush_cases {m m' : Memory cap ι τ} {t : ι} {pc pc' : PushPc τ} {a : PushAction τ}
    (h : tryPush m t pc a = some (m',pc')) :
    (∃ v, a = .call v ∧ (pc = .idle ∨ ∃ ok, pc = .returned ok) ∧ m' = m ∧ pc' = .loadHead v) ∨
    (a.value = none ∧ m' = m ∧ ∃ v, pc.pending = some v ∧
      (pc' = .loadHead v ∨ pc' = .loadSeq v m.head ∨
        (∃ pos, m.seq (cap.slot pos) = pos ∧ pc' = .compareExchange v pos) ∨
        ∃ pos, pc = .loadSeq v pos ∧ signedDiff (m.seq (cap.slot pos)) pos < 0 ∧
          pc' = .returned false)) ∨
    (∃ v pos, a = .step ∧ pc = .compareExchange v pos ∧ m.head = pos ∧
      m' = { m with head := pos+1, pushes := m.pushes ++ [(t,v)] } ∧ pc' = .construct v pos) ∨
    (∃ v pos, a = .step ∧ pc = .construct v pos ∧
      m' = { m with storage := Function.update m.storage (cap.slot pos) .constructing } ∧
      pc' = .constructing v pos) ∨
    (∃ v pos, a = .step ∧ pc = .constructing v pos ∧
      m' = { m with storage := Function.update m.storage (cap.slot pos) (.live v) } ∧
      pc' = .publish v pos) ∨
    ∃ v pos, a = .step ∧ pc = .publish v pos ∧
      m' = { m with seq := Function.update m.seq (cap.slot pos) (pos+1) } ∧
      pc' = .returned true := by
  unfold tryPush at h
  split at h
  · cases h
    exact .inl ⟨_,rfl,.inl rfl,rfl,rfl⟩
  · cases h
    exact .inl ⟨_,rfl,.inr ⟨_,rfl⟩,rfl,rfl⟩
  · cases h
    exact .inr (.inl ⟨rfl,rfl,_,rfl,.inr (.inl rfl)⟩)
  · next v pos =>
    simp only at h
    split_ifs at h with hzero hneg
    · cases h
      exact .inr (.inl ⟨rfl,rfl,v,rfl,.inr (.inr (.inl ⟨pos,signedDiff_eq_zero.mp hzero,rfl⟩))⟩)
    · cases h
      exact .inr (.inl ⟨rfl,rfl,v,rfl,.inr (.inr (.inr ⟨pos,rfl,hneg,rfl⟩))⟩)
    · cases h
      exact .inr (.inl ⟨rfl,rfl,v,rfl,.inl rfl⟩)
  · next v pos =>
    split_ifs at h with heq
    · cases h
      exact .inr (.inr (.inl ⟨v,pos,rfl,rfl,heq,rfl,rfl⟩))
    · cases h
      exact .inr (.inl ⟨rfl,rfl,v,rfl,.inr (.inl rfl)⟩)
  · cases h
    exact .inr (.inl ⟨rfl,rfl,_,rfl,.inr (.inl rfl)⟩)
  · cases h
    exact .inr (.inr (.inr (.inl ⟨_,_,rfl,rfl,rfl,rfl⟩)))
  · cases h
    exact .inr (.inr (.inr (.inr (.inl ⟨_,_,rfl,rfl,rfl,rfl⟩))))
  · cases h
    exact .inr (.inr (.inr (.inr (.inr ⟨_,_,rfl,rfl,rfl,rfl⟩))))
  · cases h

theorem PushPc.claim_of_pending {pc : PushPc τ} {v : τ} (h : pc.pending = some v) :
    pc.claim = none := by
  cases pc <;> simp_all [PushPc.pending,PushPc.claim]

theorem PushPc.current_of_claim {pc : PushPc τ} {v : τ} {pos : UInt64}
    (h : pc.claim = some (v,pos)) : pc.current = some v := by
  cases pc <;> simp_all [PushPc.current,PushPc.pending,PushPc.claim]

/-- A claim is recorded once, with the value it is for. -/
theorem tryPush_pushes {m m' : Memory cap ι τ} {t : ι} {pc pc' : PushPc τ} {a : PushAction τ}
    (h : tryPush m t pc a = some (m',pc')) :
    m'.pushes = m.pushes ∧ pc'.pending.toList.Sublist (pc.pending.toList ++ a.value.toList) ∨
      ∃ v, m'.pushes = m.pushes ++ [(t,v)] ∧ pc.pending = some v ∧ pc'.pending = none := by
  rcases tryPush_cases h with ⟨v,rfl,-,rfl,rfl⟩ | ⟨-,rfl,v,hpending,hpc⟩ |
    ⟨v,pos,-,rfl,-,rfl,rfl⟩ | ⟨v,pos,-,-,rfl,rfl⟩ | ⟨v,pos,-,-,rfl,rfl⟩ | ⟨v,pos,-,-,rfl,rfl⟩
  · exact .inl ⟨rfl,List.sublist_append_right ..⟩
  · refine .inl ⟨rfl,List.Sublist.trans ?_ (List.sublist_append_left ..)⟩
    rw [hpending]
    rcases hpc with rfl | rfl | ⟨pos,-,rfl⟩ | ⟨pos,-,-,rfl⟩
    · exact .refl _
    · exact .refl _
    · exact .refl _
    · exact List.nil_sublist _
  · exact .inr ⟨v,rfl,rfl,rfl⟩
  · exact .inl ⟨rfl,List.nil_sublist _⟩
  · exact .inl ⟨rfl,List.nil_sublist _⟩
  · exact .inl ⟨rfl,List.nil_sublist _⟩

theorem tryPush_grows {m m' : Memory cap ι τ} {t : ι} {pc pc' : PushPc τ} {a : PushAction τ}
    (h : tryPush m t pc a = some (m',pc')) : m.pushes <+: m'.pushes := by
  rcases tryPush_pushes h with ⟨hsame,-⟩ | ⟨v,hgrow,-,-⟩
  · exact hsame ▸ List.prefix_rfl
  · exact hgrow ▸ List.prefix_append ..

/-- What a step inside a call does to the call and to the claims. -/
theorem tryPush_current {m m' : Memory cap ι τ} {t : ι} {pc pc' : PushPc τ} {a : PushAction τ}
    (h : tryPush m t pc a = some (m',pc')) (ha : a.value = none) :
    ∃ x, pc.current = some x ∧
      (m'.pushes = m.pushes ∧ pc'.current = some x ∨
      m'.pushes = m.pushes ++ [(t,x)] ∧ pc.pending = some x ∧ pc'.current = some x ∨
      m'.pushes = m.pushes ∧ pc.pending = some x ∧ pc' = .returned false ∨
      m'.pushes = m.pushes ∧ (∃ pos, pc.claim = some (x,pos)) ∧ pc' = .returned true) := by
  rcases tryPush_cases h with ⟨v,rfl,-,-,-⟩ | ⟨-,rfl,v,hpending,hpc⟩ |
    ⟨v,pos,-,rfl,-,rfl,rfl⟩ | ⟨v,pos,-,rfl,rfl,rfl⟩ | ⟨v,pos,-,rfl,rfl,rfl⟩ | ⟨v,pos,-,rfl,rfl,rfl⟩
  · cases ha
  · refine ⟨v,by rw [PushPc.current,hpending]; rfl,?_⟩
    rcases hpc with rfl | rfl | ⟨pos,-,rfl⟩ | ⟨pos,-,-,rfl⟩
    · exact .inl ⟨rfl,rfl⟩
    · exact .inl ⟨rfl,rfl⟩
    · exact .inl ⟨rfl,rfl⟩
    · exact .inr (.inr (.inl ⟨rfl,hpending,rfl⟩))
  · exact ⟨v,rfl,.inr (.inl ⟨rfl,rfl,rfl⟩)⟩
  · exact ⟨v,rfl,.inl ⟨rfl,rfl⟩⟩
  · exact ⟨v,rfl,.inl ⟨rfl,rfl⟩⟩
  · exact ⟨v,rfl,.inr (.inr (.inr ⟨rfl,⟨pos,rfl⟩,rfl⟩))⟩

/-- A producer past its claim has its value among the claims. -/
theorem tryPush_claim {m m' : Memory cap ι τ} {t : ι} {pc pc' : PushPc τ} {a : PushAction τ}
    (h : tryPush m t pc a = some (m',pc'))
    (hold : ∀ v pos, pc.claim = some (v,pos) → (t,v) ∈ m.pushes) {v : τ} {pos : UInt64}
    (hv : pc'.claim = some (v,pos)) : (t,v) ∈ m'.pushes := by
  rcases tryPush_cases h with ⟨w,-,-,-,rfl⟩ | ⟨-,-,w,-,hpc⟩ | ⟨w,q,-,-,-,rfl,rfl⟩ |
    ⟨w,q,-,rfl,rfl,rfl⟩ | ⟨w,q,-,rfl,rfl,rfl⟩ | ⟨w,q,-,-,-,rfl⟩
  · cases hv
  · rcases hpc with rfl | rfl | ⟨q,-,rfl⟩ | ⟨q,-,-,rfl⟩ <;> cases hv
  · cases hv
    exact List.mem_append_right _ (List.mem_singleton_self _)
  · cases hv
    exact hold v pos rfl
  · cases hv
    exact hold v pos rfl
  · cases hv

/-- Where `try_push` returns false. -/
theorem tryPush_false {m m' : Memory cap ι τ} {t : ι} {pc : PushPc τ} {a : PushAction τ}
    (h : tryPush m t pc a = some (m',.returned false)) :
    ∃ v pos, pc = .loadSeq v pos ∧ signedDiff (m.seq (cap.slot pos)) pos < 0 := by
  rcases tryPush_cases h with ⟨v,-,-,-,hpc⟩ | ⟨-,-,v,-,hpc⟩ | ⟨v,pos,-,-,-,-,hpc⟩ |
    ⟨v,pos,-,-,-,hpc⟩ | ⟨v,pos,-,-,-,hpc⟩ | ⟨v,pos,-,-,-,hpc⟩
  · cases hpc
  · rcases hpc with hpc | hpc | ⟨pos,-,hpc⟩ | ⟨pos,hpc,hneg,-⟩
    · cases hpc
    · cases hpc
    · cases hpc
    · exact ⟨v,pos,hpc,hneg⟩
  all_goals cases hpc

theorem tryPush_refused {m : Memory cap ι τ} {t : ι} {v : τ} {pos : UInt64}
    (hneg : signedDiff (m.seq (cap.slot pos)) pos < 0) :
    tryPush m t (.loadSeq v pos) .step = some (m,.returned false) := by
  have hne : signedDiff (m.seq (cap.slot pos)) pos ≠ 0 := Int64.ne_of_lt hneg
  simp only [tryPush,if_neg hne,if_pos hneg]

end Step

/-! ### The ring behind the memory -/

section Refinement

variable {cap : Capacity} {ι κ τ : Type*}

/-- Producer `t` holds the position its slot serves, and the slot's bytes are `bytes`. -/
structure Owns (m : Memory cap ι τ) (r : Ring cap.n ι κ) (t : ι) (v : τ) (pos : UInt64)
    (bytes : Storage τ) : Prop where
  pos_eq : pos = UInt64.ofNat (r.cur (cap.slot pos))
  stage : r.stage (cap.slot pos) = .writing t
  claimed : m.pushes[r.cur (cap.slot pos)]? = some (t,v)
  storage : m.storage (cap.slot pos) = bytes

/-- What a producer knows. A position it has loaded may be long outdated; all it can
tell is that the slot has come at least that far. -/
def PushPc.Ok (m : Memory cap ι τ) (r : Ring cap.n ι κ) (t : ι) : PushPc τ → Prop
  | .loadSeq _ pos => ∃ p, pos = UInt64.ofNat p ∧ p ≤ r.head
  | .compareExchange _ pos => ∃ p, pos = UInt64.ofNat p ∧ p ≤ r.cur (cap.slot pos)
  | .construct v pos => Owns m r t v pos .raw
  | .constructing v pos => Owns m r t v pos .constructing
  | .publish v pos => Owns m r t v pos (.live v)
  | _ => True

structure Sim (m : Memory cap ι τ) (producers : ι → PushPc τ) (r : Ring cap.n ι κ) : Prop where
  head : m.head = UInt64.ofNat r.head
  claims : m.pushes.length = r.head
  seq : ∀ i, m.seq i = UInt64.ofNat (r.shown i)
  free : ∀ i, r.stage i = .free → m.storage i = .raw
  full : ∀ i, r.stage i = .full → ∃ t v, m.pushes[r.cur i]? = some (t,v) ∧ m.storage i = .live v
  writing : ∀ i t, r.stage i = .writing t →
    ∃ v pos, (producers t).claim = some (v,pos) ∧ cap.slot pos = i
  producers : ∀ t, (producers t).Ok m r t

theorem Sim.init (producers : ι → PushPc τ) (h : ∀ t, producers t = .idle) :
    Sim Memory.init producers (Ring.init : Ring cap.n ι κ) where
  head := rfl
  claims := rfl
  seq := fun _ => rfl
  free := fun _ _ => rfl
  full := fun _ hi => by simp [Ring.init] at hi
  writing := fun _ _ hi => by simp [Ring.init] at hi
  producers := fun t => by rw [h]; trivial

theorem prefix_getElem? {α : Type*} {xs ys : List α} {i : ℕ} {x : α} (h : xs <+: ys)
    (hx : xs[i]? = some x) : ys[i]? = some x := by
  obtain ⟨zs,rfl⟩ := h
  rw [List.getElem?_append_left (List.getElem?_eq_some_iff.mp hx).1]
  exact hx

theorem prefix_concat {α : Type*} {xs ys : List α} {x : α} (h : xs <+: ys)
    (hx : ys[xs.length]? = some x) : xs ++ [x] <+: ys := by
  obtain ⟨zs,rfl⟩ := h
  rw [List.getElem?_append_right le_rfl,Nat.sub_self] at hx
  cases zs with
  | nil => cases hx
  | cons z zs =>
    cases hx
    exact ⟨zs,by simp⟩

/-- A step of others leaves alone what a producer is writing, and never moves back. -/
theorem PushPc.Ok.mono {m m' : Memory cap ι τ} {r r' : Ring cap.n ι κ} {t : ι} {pc : PushPc τ}
    (h : pc.Ok m r t)
    (hown : ∀ i, r.stage i = .writing t →
      r'.stage i = .writing t ∧ r'.cur i = r.cur i ∧ m'.storage i = m.storage i)
    (hcur : ∀ i, r.cur i ≤ r'.cur i) (hhead : r.head ≤ r'.head) (hpushes : m.pushes <+: m'.pushes) :
    pc.Ok m' r' t := by
  have howns : ∀ {v pos bytes}, Owns m r t v pos bytes → Owns m' r' t v pos bytes := by
    intro v pos bytes ho
    obtain ⟨hstage,hcur',hstorage⟩ := hown _ ho.stage
    exact {
      pos_eq := by rw [hcur']; exact ho.pos_eq
      stage := hstage
      claimed := by rw [hcur']; exact prefix_getElem? hpushes ho.claimed
      storage := hstorage.trans ho.storage }
  cases pc with
  | loadSeq v pos =>
    obtain ⟨p,hp,hle⟩ := h
    exact ⟨p,hp,hle.trans hhead⟩
  | compareExchange v pos =>
    obtain ⟨p,hp,hle⟩ := h
    exact ⟨p,hp,hle.trans (hcur _)⟩
  | construct v pos => exact howns h
  | constructing v pos => exact howns h
  | publish v pos => exact howns h
  | _ => trivial

variable {m m' : Memory cap ι τ} {producers : ι → PushPc τ} {r r' : Ring cap.n ι κ} {t : ι}
  {pc : PushPc τ}

/-- What a push does not touch: the consumers' end, and every slot that is full or read. -/
structure Undisturbed (m m' : Memory cap ι τ) (r r' : Ring cap.n ι κ) : Prop where
  tail : r'.tail = r.tail
  cur : r'.cur = r.cur
  head : r.head ≤ r'.head
  full : ∀ i, r.stage i = .full → r'.stage i = .full
  reading : ∀ i k, r.stage i = .reading k → r'.stage i = .reading k ∧ m'.storage i = m.storage i
  pushes : m.pushes <+: m'.pushes

theorem Undisturbed.refl : Undisturbed m m r r :=
  ⟨rfl,rfl,le_rfl,fun _ h => h,fun _ _ h => ⟨h,rfl⟩,List.prefix_rfl⟩

/-- A slot under construction has one owner. -/
theorem Sim.owner (h : Sim m producers r) {v : τ} {pos : UInt64}
    (hclaim : (producers t).claim = some (v,pos)) {i : Fin cap.n}
    (hi : r.stage i = .writing t) : i = cap.slot pos := by
  obtain ⟨v',pos',hclaim',hslot⟩ := h.writing i t hi
  rw [hclaim] at hclaim'
  cases hclaim'
  exact hslot.symm

/-- The claim a producer holds is the one its slot serves. -/
theorem Sim.claimed (h : Sim m producers r) {v : τ} {pos : UInt64}
    (hclaim : (producers t).claim = some (v,pos)) :
    m.pushes[r.cur (cap.slot pos)]? = some (t,v) := by
  have hok := h.producers t
  cases hpc : producers t with
  | construct w q | constructing w q | publish w q =>
    rw [hpc] at hclaim hok
    cases hclaim
    exact Owns.claimed hok
  | _ => simp [hpc,PushPc.claim] at hclaim

/-! ### The consumers' end -/

/-- A change of one slot that no producer holds. -/
theorem Sim.setSlot (h : Sim m producers r) {i : Fin cap.n} (hhead : m'.head = m.head)
    (hpushes : m'.pushes = m.pushes) (hrhead : r'.head = r.head)
    (hother : ∀ j, j ≠ i → r'.cur j = r.cur j ∧ r'.stage j = r.stage j ∧
      m'.storage j = m.storage j ∧ m'.seq j = m.seq j)
    (hold : ∀ t, r.stage i ≠ .writing t) (hnew : ∀ t, r'.stage i ≠ .writing t)
    (hfull : r'.stage i ≠ .full) (hfree : r'.stage i = .free → m'.storage i = .raw)
    (hcur : r.cur i ≤ r'.cur i) (hseq : m'.seq i = UInt64.ofNat (r'.shown i)) :
    Sim m' producers r' where
  head := by rw [hhead,hrhead,h.head]
  claims := by rw [hpushes,hrhead,h.claims]
  seq := fun j => by
    rcases eq_or_ne j i with rfl | hne
    · exact hseq
    · obtain ⟨hc,hs,-,hq⟩ := hother j hne
      rw [hq,h.seq,Ring.shown_congr hc hs]
  free := fun j hj => by
    rcases eq_or_ne j i with rfl | hne
    · exact hfree hj
    · obtain ⟨-,hs,hb,-⟩ := hother j hne
      rw [hb,h.free j (hs.symm.trans hj)]
  full := fun j hj => by
    rcases eq_or_ne j i with rfl | hne
    · exact absurd hj hfull
    · obtain ⟨hc,hs,hb,-⟩ := hother j hne
      rw [hpushes,hc,hb]
      exact h.full j (hs.symm.trans hj)
  writing := fun j t hj => by
    rcases eq_or_ne j i with rfl | hne
    · exact absurd hj (hnew t)
    · exact h.writing j t ((hother j hne).2.1.symm.trans hj)
  producers := fun t => by
    refine (h.producers t).mono (fun j hj => ?_) (fun j => ?_) hrhead.ge
      (by rw [hpushes])
    · have hne : j ≠ i := by
        rintro rfl
        exact hold t hj
      obtain ⟨hc,hs,hb,-⟩ := hother j hne
      exact ⟨hs.trans hj,hc,hb⟩
    · rcases eq_or_ne j i with rfl | hne
      · exact hcur
      · exact (hother j hne).1.ge

theorem Sim.claimPop (h : Sim m producers r) {i : Fin cap.n} {k : κ} (hfull : r.stage i = .full)
    (hcur : r.cur i = r.tail) : Sim m producers (r.claimPop i k hfull hcur) := by
  have hi : (r.claimPop i k hfull hcur).stage i = .reading k := Function.update_self ..
  refine h.setSlot (i := i) rfl rfl rfl
    (fun j hj => ⟨rfl,Function.update_of_ne hj ..,rfl,rfl⟩) ?_ ?_ ?_ ?_ le_rfl ?_
  · simp [hfull]
  · simp [hi]
  · simp [hi]
  · simp [hi]
  · rw [r.shown_claimPop]
    exact h.seq i

theorem Sim.setRead (h : Sim m producers r) {i : Fin cap.n} {k : κ}
    (hreading : r.stage i = .reading k) (bytes : Storage τ) :
    Sim { m with storage := Function.update m.storage i bytes } producers r :=
  h.setSlot (i := i) rfl rfl rfl (fun _ hj => ⟨rfl,rfl,Function.update_of_ne hj ..,rfl⟩)
    (by simp [hreading]) (by simp [hreading]) (by simp [hreading]) (by simp [hreading]) le_rfl
    (h.seq i)

theorem Sim.release (h : Sim m producers r) {i : Fin cap.n} {k : κ}
    (hreading : r.stage i = .reading k) (hraw : m.storage i = .raw) {word : UInt64}
    (hword : word = UInt64.ofNat (r.cur i+cap.n)) :
    Sim { m with seq := Function.update m.seq i word } producers (r.release i k hreading) := by
  have hi : (r.release i k hreading).stage i = .free := Function.update_self ..
  refine h.setSlot (i := i) rfl rfl rfl
    (fun j hj => ⟨Function.update_of_ne hj ..,Function.update_of_ne hj ..,rfl,
      Function.update_of_ne hj ..⟩) ?_ ?_ ?_ ?_ ?_ ?_
  · simp [hreading]
  · simp [hi]
  · simp [hi]
  · exact fun _ => hraw
  · have hnext : (r.release i k hreading).cur i = r.cur i+cap.n := Function.update_self ..
    omega
  · rw [r.shown_release,Function.update_self,← hword]
    exact Function.update_self ..

/-- A refusal: the slot at the head still serves the position one round back. -/
theorem Sim.refused (h : Sim m producers r) {v : τ} {pos : UInt64}
    (hpc : producers t = .loadSeq v pos) (hneg : signedDiff (m.seq (cap.slot pos)) pos < 0)
    (hhead : r.head < 2^63) (htail : r.tail+cap.n ≤ 2^63) :
    pos = UInt64.ofNat r.head ∧ r.cur (cap.slot pos)+cap.n = r.head := by
  have hok := h.producers t
  rw [hpc] at hok
  obtain ⟨p,hp,hle⟩ := hok
  have hslot : p % cap.n = (cap.slot pos).val := by rw [hp,cap.slot_ofNat]
  have hbound : r.shown (cap.slot pos) < 2^63 := by
    rcases r.shown_le (cap.slot pos) with h' | h'
    · exact h'.trans_lt hhead
    · exact h'.trans_le htail
  have hlt : r.shown (cap.slot pos) < p := by
    have hdiff := signedDiff_near (show p ≤ r.shown (cap.slot pos)+2^63 by omega)
      (show r.shown (cap.slot pos) < p+2^63 by omega)
    rw [← hp] at hdiff
    rw [Int64.lt_iff_toInt_lt,h.seq,hdiff] at hneg
    have hzero : (0 : Int64).toInt = 0 := rfl
    omega
  obtain ⟨heq,hcur⟩ := r.head_of_lagging hslot hle ((r.cur_le_shown _).trans_lt hlt)
  exact ⟨by rw [hp,heq],hcur⟩

/-! ### The producers' end -/

/-- The compare-exchange succeeds only at the head of the ring, and only on a free slot. -/
theorem Sim.head_free (h : Sim m producers r) {v : τ} {pos : UInt64}
    (hpc : producers t = .compareExchange v pos) (hhead : m.head = pos)
    (hb : m.pushes.length < 2^64) :
    r.stage (cap.slot pos) = .free ∧ r.cur (cap.slot pos) = r.head := by
  have hok := h.producers t
  rw [hpc] at hok
  obtain ⟨p,hp,hle⟩ := hok
  have hword : r.head = p := by
    have heq := congrArg UInt64.toNat (h.head.symm.trans (hhead.trans hp))
    rw [UInt64.toNat_ofNat',UInt64.toNat_ofNat'] at heq
    have := h.claims
    have := r.ahead (cap.slot pos)
    have := r.tail_le
    have := cap.addressable
    omega
  rw [← hword] at hp hle
  have hslot : r.head % cap.n = (cap.slot pos).val := by rw [hp,cap.slot_ofNat]
  exact ⟨(r.free_iff _).mpr hle,r.cur_eq_head hslot hle⟩

variable [DecidableEq ι]

/-- A step of a producer that holds no slot and claims none. -/
theorem Sim.setProducer (h : Sim m producers r) (hold : (producers t).claim = none)
    (hok : pc.Ok m r t) : Sim m (Function.update producers t pc) r := by
  refine { h with writing := fun i u hu => ?_, producers := fun u => ?_ }
  · obtain ⟨v,pos,hclaim,hslot⟩ := h.writing i u hu
    have hne : u ≠ t := by
      rintro rfl
      rw [hold] at hclaim
      cases hclaim
    exact ⟨v,pos,by rwa [Function.update_of_ne hne],hslot⟩
  · rcases eq_or_ne u t with rfl | hne
    · rwa [Function.update_self]
    · rw [Function.update_of_ne hne]
      exact h.producers u

/-- The bytes of a claimed slot change, and nothing else does. -/
theorem Sim.setBytes (h : Sim m producers r) {v : τ} {pos : UInt64} {bytes bytes' : Storage τ}
    (hclaim : (producers t).claim = some (v,pos)) (hclaim' : pc.claim = some (v,pos))
    (howns : Owns m r t v pos bytes)
    (hok : ∀ m' : Memory cap ι τ, Owns m' r t v pos bytes' → pc.Ok m' r t)
    (hm : m' = { m with storage := Function.update m.storage (cap.slot pos) bytes' }) :
    Sim m' (Function.update producers t pc) r ∧ Undisturbed m m' r r := by
  subst hm
  have hother : ∀ i, r.stage i ≠ .writing t →
      Function.update m.storage (cap.slot pos) bytes' i = m.storage i := by
    intro i hi
    rw [Function.update_of_ne]
    rintro rfl
    exact hi howns.stage
  refine ⟨{ h with
    free := fun i hi => ?_
    full := fun i hi => ?_
    writing := fun i u hu => ?_
    producers := fun u => ?_ },
    rfl,rfl,le_rfl,fun _ hi => hi,fun i k hi => ⟨hi,hother i (by simp [hi])⟩,List.prefix_rfl⟩
  · exact (hother i (by simp [hi])).trans (h.free i hi)
  · obtain ⟨u,w,hw,hlive⟩ := h.full i hi
    exact ⟨u,w,hw,(hother i (by simp [hi])).trans hlive⟩
  · rcases eq_or_ne u t with rfl | hne
    · exact ⟨v,pos,by rwa [Function.update_self],(h.owner hclaim hu).symm⟩
    · rw [Function.update_of_ne hne]
      exact h.writing i u hu
  · rcases eq_or_ne u t with rfl | hne
    · rw [Function.update_self]
      exact hok _ ⟨howns.pos_eq,howns.stage,howns.claimed,Function.update_self ..⟩
    · rw [Function.update_of_ne hne]
      refine (h.producers u).mono (fun i hi => ⟨hi,rfl,hother i ?_⟩) (fun _ => le_rfl) le_rfl
        List.prefix_rfl
      rw [hi]
      simpa using hne

theorem Sim.claimPush (h : Sim m producers r) {v : τ} {pos : UInt64}
    (hpc : producers t = .compareExchange v pos) (hhead : m.head = pos)
    (hb : m.pushes.length < 2^64)
    (hm : m' = { m with head := pos+1, pushes := m.pushes ++ [(t,v)] }) :
    ∃ r' : Ring cap.n ι κ, Sim m' (Function.update producers t (.construct v pos)) r' ∧
      Undisturbed m m' r r' := by
  subst hm
  obtain ⟨hfree,hcur⟩ := h.head_free hpc hhead hb
  have hpos : pos = UInt64.ofNat r.head := hhead.symm.trans h.head
  have hnext : pos+1 = UInt64.ofNat (r.head+1) := by
    rw [hpos]
    exact (UInt64.ofNat_add r.head 1).symm
  have hother : ∀ j, r.stage j ≠ .free →
      (r.claimPush (cap.slot pos) t hfree hcur).stage j = r.stage j := by
    intro j hj
    refine Function.update_of_ne ?_ ..
    rintro rfl
    exact hj hfree
  have hnew : (m.pushes ++ [(t,v)])[r.cur (cap.slot pos)]? = some (t,v) := by
    rw [hcur,← h.claims]
    exact List.getElem?_concat_length
  refine ⟨r.claimPush (cap.slot pos) t hfree hcur,{
    head := hnext
    claims := by
      rw [List.length_append,h.claims]
      rfl
    seq := fun j => by
      rw [r.shown_claimPush]
      exact h.seq j
    free := fun j hj => h.free j ?_
    full := fun j hj => ?_
    writing := fun j u hu => ?_
    producers := fun u => ?_ },
    rfl,rfl,Nat.le_succ _,fun j hj => ?_,fun j k hj => ⟨?_,rfl⟩,List.prefix_append ..⟩
  · rw [Ring.free_iff] at hj ⊢
    exact (Nat.le_succ _).trans hj
  · rcases eq_or_ne j (cap.slot pos) with rfl | hne
    · cases (Function.update_self ..).symm.trans hj
    · obtain ⟨u,w,hw,hlive⟩ := h.full j ((Function.update_of_ne hne ..).symm.trans hj)
      exact ⟨u,w,prefix_getElem? (List.prefix_append ..) hw,hlive⟩
  · rcases eq_or_ne j (cap.slot pos) with rfl | hne
    · cases (Function.update_self ..).symm.trans hu
      exact ⟨v,pos,by rw [Function.update_self]; rfl,rfl⟩
    · obtain ⟨w,pos',hclaim,hslot⟩ := h.writing j u ((Function.update_of_ne hne ..).symm.trans hu)
      have hut : u ≠ t := by
        rintro rfl
        rw [hpc] at hclaim
        cases hclaim
      exact ⟨w,pos',by rwa [Function.update_of_ne hut],hslot⟩
  · rcases eq_or_ne u t with rfl | hne
    · rw [Function.update_self]
      exact ⟨hpos.trans (congrArg _ hcur.symm),Function.update_self ..,hnew,h.free _ hfree⟩
    · rw [Function.update_of_ne hne]
      refine (h.producers u).mono (fun j hj => ⟨?_,rfl,rfl⟩) (fun _ => le_rfl) (Nat.le_succ _)
        (List.prefix_append ..)
      rw [hother j (by simp [hj]),hj]
  · rw [hother j (by simp [hj]),hj]
  · rw [hother j (by simp [hj]),hj]

theorem Sim.publish (h : Sim m producers r) {v : τ} {pos : UInt64}
    (hpc : producers t = .publish v pos) {ok : Bool}
    (hm : m' = { m with seq := Function.update m.seq (cap.slot pos) (pos+1) }) :
    ∃ r' : Ring cap.n ι κ, Sim m' (Function.update producers t (.returned ok)) r' ∧
      Undisturbed m m' r r' := by
  subst hm
  have howns : Owns m r t v pos (.live v) := by
    have hok := h.producers t
    rwa [hpc] at hok
  have hclaim : (producers t).claim = some (v,pos) := by rw [hpc]; rfl
  have hshown : pos+1 = UInt64.ofNat (r.cur (cap.slot pos)+1) := by
    rw [UInt64.ofNat_add,← howns.pos_eq]
    rfl
  have hother : ∀ j, r.stage j ≠ .writing t →
      (r.publish (cap.slot pos) t howns.stage).stage j = r.stage j := by
    intro j hj
    refine Function.update_of_ne ?_ ..
    rintro rfl
    exact hj howns.stage
  refine ⟨r.publish (cap.slot pos) t howns.stage,{
    head := h.head
    claims := h.claims
    seq := fun j => ?_
    free := fun j hj => h.free j ?_
    full := fun j hj => ?_
    writing := fun j u hu => ?_
    producers := fun u => ?_ },
    rfl,rfl,le_rfl,fun j hj => ?_,fun j k hj => ⟨?_,rfl⟩,List.prefix_rfl⟩
  · rw [r.shown_publish]
    rcases eq_or_ne j (cap.slot pos) with rfl | hne
    · simpa only [Function.update_self] using hshown
    · simpa only [Function.update_of_ne hne] using h.seq j
  · rw [Ring.free_iff] at hj ⊢
    exact hj
  · rcases eq_or_ne j (cap.slot pos) with rfl | hne
    · exact ⟨t,v,howns.claimed,howns.storage⟩
    · exact h.full j ((Function.update_of_ne hne ..).symm.trans hj)
  · rcases eq_or_ne j (cap.slot pos) with rfl | hne
    · cases (Function.update_self ..).symm.trans hu
    · have hu' := (Function.update_of_ne hne ..).symm.trans hu
      have hut : u ≠ t := by
        rintro rfl
        exact hne (h.owner hclaim hu')
      rw [Function.update_of_ne hut]
      exact h.writing j u hu'
  · rcases eq_or_ne u t with rfl | hne
    · rw [Function.update_self]
      trivial
    · rw [Function.update_of_ne hne]
      refine (h.producers u).mono (fun j hj => ⟨?_,rfl,rfl⟩) (fun _ => le_rfl) le_rfl
        List.prefix_rfl
      rw [hother j (by rw [hj]; simpa using hne),hj]
  · rw [hother j (by simp [hj]),hj]
  · rw [hother j (by simp [hj]),hj]

/-- One step of `try_push` is a step of the ring, or none. -/
theorem Sim.push (h : Sim m producers r) {a : PushAction τ} (hb : m'.pushes.length ≤ 2^64)
    (hstep : tryPush m t (producers t) a = some (m',pc)) :
    ∃ r' : Ring cap.n ι κ, Sim m' (Function.update producers t pc) r' ∧ Undisturbed m m' r r' := by
  have hok := h.producers t
  rcases tryPush_cases hstep with ⟨v,-,hpc,rfl,rfl⟩ | ⟨-,rfl,v,hpending,hpc⟩ |
    ⟨v,pos,-,hpc,hhead,hm,rfl⟩ | ⟨v,pos,-,hpc,hm,rfl⟩ | ⟨v,pos,-,hpc,hm,rfl⟩ | ⟨v,pos,-,hpc,hm,rfl⟩
  · refine ⟨r,h.setProducer ?_ trivial,.refl⟩
    rcases hpc with hpc | ⟨ok,hpc⟩ <;> rw [hpc] <;> rfl
  · refine ⟨r,h.setProducer (PushPc.claim_of_pending hpending) ?_,.refl⟩
    rcases hpc with rfl | rfl | ⟨pos,hseq,rfl⟩ | ⟨pos,-,-,rfl⟩
    · trivial
    · exact ⟨r.head,h.head,le_rfl⟩
    · have hword := (h.seq (cap.slot pos)).symm.trans hseq
      refine ⟨r.shown (cap.slot pos),hword.symm,?_⟩
      have hslot : r.shown (cap.slot pos) % cap.n = (cap.slot pos).val := by
        rw [← cap.slot_ofNat,hword]
      exact (r.shown_own cap.two_le hslot).1.le
    · trivial
  · refine h.claimPush hpc hhead ?_ hm
    rw [hm,List.length_append,List.length_singleton] at hb
    omega
  · rw [hpc] at hok
    exact ⟨r,h.setBytes (by rw [hpc]; rfl) rfl hok (fun _ ho => ho) hm⟩
  · rw [hpc] at hok
    exact ⟨r,h.setBytes (by rw [hpc]; rfl) rfl hok (fun _ ho => ho) hm⟩
  · exact h.publish hpc hm

end Refinement
end Marketlib
