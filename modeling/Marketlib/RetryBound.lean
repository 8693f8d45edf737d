import Marketlib.MpmcQueue
import Marketlib.MpscQueue
import Marketlib.Progress

/-! How long a call of `try_push` or `try_pop` can go on: it goes round its loop again only when
another caller has claimed a position meanwhile or a weak compare-exchange failed spuriously. -/

namespace Marketlib

open TicketRing

/-! ### What a caller reads at the counter it just loaded -/

namespace TicketRing.Ring

variable {n : ℕ} {ι κ : Type*} (r : Ring n ι κ) {i : Fin n}

theorem shown_head (hi : r.head % n = i.val) : r.shown i ≤ r.head ∧ r.head ≤ r.shown i+n := by
  have hbehind := r.behind i
  have hlow := r.cur_le_shown i
  by_cases h : r.head ≤ r.cur i
  · have hcur := r.cur_eq_head hi h
    rw [r.shown_of_free ((r.free_iff i).mpr h)]
    omega
  · have hhigh : r.shown i ≤ r.cur i+1 := by
      unfold shown
      split <;> omega
    omega

theorem shown_tail (hi : r.tail % n = i.val) :
    r.shown i ≤ r.tail+1 ∧ r.tail+1 ≤ r.shown i+n := by
  have hn := i.pos
  have hlow := r.cur_le_shown i
  have hhigh : r.shown i ≤ r.cur i+1 := by
    unfold shown
    split <;> omega
  by_cases h : r.tail ≤ r.cur i
  · have hcur := r.cur_eq_tail hi h
    omega
  · obtain ⟨k,hk⟩ := (r.reading_iff i).mpr (by omega)
    have hshown := r.shown_of_reading hk
    have hbehind := r.behind i
    have htail := r.tail_le
    omega

end TicketRing.Ring

theorem signedDiff_not_pos {a b n : ℕ} (hn : n < 2^63) (h : a ≤ b ∧ b ≤ a+n) :
    ¬0 < signedDiff (UInt64.ofNat a) (UInt64.ofNat b) := by
  rw [Int64.lt_iff_toInt_lt,signedDiff_near (by omega) (by omega),Int64.toInt_zero]
  omega

theorem Capacity.lt_half (cap : Capacity) : cap.n < 2^63 := by
  have := cap.addressable
  omega

/-- The counter a caller compares with is no longer the one it loaded. -/
def stale (now loaded : UInt64) : ℕ := if now = loaded then 0 else 2

@[simp] theorem stale_self (x : UInt64) : stale x x = 0 := if_pos rfl

theorem stale_of_ne {x y : UInt64} (h : x ≠ y) : stale x y = 2 := if_neg h

theorem stale_le (x y : UInt64) : stale x y ≤ 2 := by
  unfold stale
  split <;> omega

/-- The claims that are not `t`'s. -/
def others {ι α : Type*} [DecidableEq ι] (t : ι) (claims : List (ι × α)) : ℕ :=
  claims.countP fun x => x.1 ≠ t

section Others

variable {ι α : Type*} [DecidableEq ι] {t u : ι}

@[simp] theorem others_append (xs ys : List (ι × α)) :
    others t (xs ++ ys) = others t xs+others t ys := List.countP_append

@[simp] theorem others_own (x : α) : others t [(t,x)] = 0 := by simp [others]

theorem others_ne (h : u ≠ t) (x : α) : others t [(u,x)] = 1 := by simp [others,h]

theorem others_drop {xs ys : List (ι × α)} (h : xs <+: ys) :
    others t ys = others t xs+others t (ys.drop xs.length) := by
  obtain ⟨zs,rfl⟩ := h
  rw [others_append,List.drop_left]

end Others

/-! ### `try_push` -/

/-- The accesses a producer is from its return, as long as nobody else claims a position. -/
def PushPc.left {τ : Type*} (head : UInt64) : PushPc τ → ℕ
  | .idle => 0
  | .loadHead _ => 6
  | .loadSeq _ pos => 5+stale head pos
  | .compareExchange _ pos => 4+stale head pos
  | .construct _ _ => 3
  | .constructing _ _ => 2
  | .publish _ _ => 1
  | .returned _ => 0

theorem PushPc.left_le {τ : Type*} (pc : PushPc τ) (x y : UInt64) : pc.left x ≤ pc.left y+2 := by
  cases pc with
  | loadSeq v pos =>
    have := stale_le x pos
    simp only [left]
    omega
  | compareExchange v pos =>
    have := stale_le x pos
    simp only [left]
    omega
  | _ => exact Nat.le_add_right ..

def PushPc.InCall {τ : Type*} : PushPc τ → Prop
  | .idle => False
  | _ => True

@[simp] def PushAction.accesses {τ : Type*} : PushAction τ → ℕ
  | .call _ => 0
  | .step => 1
  | .spurious => 1

@[simp] def PushAction.failures {τ : Type*} : PushAction τ → ℕ
  | .call _ => 0
  | .step => 0
  | .spurious => 1

section Push

variable {cap : Capacity} {ι κ τ : Type*} {m m' : Memory cap ι τ} {producers : ι → PushPc τ}
  {r : Ring cap.n ι κ} {t u : ι} {pc pc' : PushPc τ} {a : PushAction τ}

/-- The slot at the head is never ahead of the head. -/
theorem Sim.not_ahead (h : Sim m producers r) :
    ¬0 < signedDiff (m.seq (cap.slot m.head)) m.head := by
  rw [h.seq,h.head]
  exact signedDiff_not_pos cap.lt_half (r.shown_head (cap.slot_ofNat r.head).symm)

/-- An access of the producer itself. -/
theorem tryPush_left (hahead : ¬0 < signedDiff (m.seq (cap.slot m.head)) m.head)
    (h : tryPush m t pc a = some (m',pc')) (ha : a.value = none) :
    a.accesses+pc'.left m'.head ≤ pc.left m.head+2*a.failures := by
  unfold tryPush at h
  split at h
  · cases ha
  · cases ha
  · cases h
    simp [PushPc.left]
  · next v pos =>
    simp only at h
    split_ifs at h with hzero hneg
    · cases h
      simp only [PushAction.accesses,PushAction.failures,PushPc.left]
      omega
    · cases h
      simp only [PushAction.accesses,PushAction.failures,PushPc.left]
      omega
    · cases h
      have hstale : m.head ≠ pos := by
        rintro rfl
        exact hahead (Int64.lt_of_le_of_ne (Int64.not_lt.mp hneg) (Ne.symm hzero))
      simp [PushPc.left,stale_of_ne hstale]
  · next v pos =>
    split_ifs at h with heq
    · cases h
      simp [PushPc.left,heq]
    · cases h
      simp [PushPc.left,stale_of_ne heq]
  · cases h
    simp only [PushAction.accesses,PushAction.failures,PushPc.left,stale_self]
    omega
  · cases h
    simp [PushPc.left]
  · cases h
    simp [PushPc.left]
  · cases h
    simp [PushPc.left]
  · cases h

theorem tryPush_inCall (h : tryPush m t pc a = some (m',pc')) : pc'.InCall := by
  rcases tryPush_cases h with ⟨v,-,-,-,rfl⟩ | ⟨-,-,v,-,hpc⟩ | ⟨v,pos,-,-,-,-,rfl⟩ |
    ⟨v,pos,-,-,-,rfl⟩ | ⟨v,pos,-,-,-,rfl⟩ | ⟨v,pos,-,-,-,rfl⟩
  · trivial
  · rcases hpc with rfl | rfl | ⟨pos,-,rfl⟩ | ⟨pos,-,-,rfl⟩ <;> trivial
  all_goals trivial

/-- A call is never stuck. -/
theorem tryPush_enabled (hcall : pc.InCall) :
    (∃ ok, pc = .returned ok) ∨ (tryPush m t pc .step).isSome = true := by
  cases pc with
  | idle => exact hcall.elim
  | returned ok => exact .inl ⟨ok,rfl⟩
  | loadSeq v pos =>
    simp only [tryPush]
    split_ifs <;> simp
  | compareExchange v pos =>
    simp only [tryPush]
    split_ifs <;> simp
  | _ => exact .inr rfl

variable [DecidableEq ι]

theorem tryPush_others (h : tryPush m t pc a = some (m',pc')) :
    others t m'.pushes = others t m.pushes := by
  rcases tryPush_pushes h with ⟨hsame,-⟩ | ⟨v,hgrow,-,-⟩
  · rw [hsame]
  · rw [hgrow,others_append,others_own,Nat.add_zero]

/-- An access of another producer: it delays the call only where it claims a position. -/
theorem tryPush_meanwhile {own : PushPc τ} (hne : u ≠ t) (h : tryPush m u pc a = some (m',pc')) :
    own.left m'.head+2*others t m.pushes ≤ own.left m.head+2*others t m'.pushes := by
  rcases tryPush_cases h with ⟨v,-,-,rfl,-⟩ | ⟨-,rfl,v,-,-⟩ | ⟨v,pos,-,-,-,rfl,-⟩ |
    ⟨v,pos,-,-,rfl,-⟩ | ⟨v,pos,-,-,rfl,-⟩ | ⟨v,pos,-,-,rfl,-⟩
  · exact le_rfl
  · exact le_rfl
  · have hdelay := own.left_le (pos+1) m.head
    simp only [others_append,others_ne hne]
    omega
  all_goals exact le_rfl

theorem tryPush_pays (hahead : ¬0 < signedDiff (m.seq (cap.slot m.head)) m.head)
    (h : tryPush m u (producers u) a = some (m',pc')) (ha : u = t → ∀ v, a ≠ .call v) :
    (if u = t then a.accesses else 0)+(Function.update producers u pc' t).left m'.head
        +2*others t m.pushes ≤
      (producers t).left m.head+2*(others t m'.pushes+(if u = t then a.failures else 0)) := by
  by_cases hu : u = t
  · subst hu
    have hvalue : a.value = none := by
      cases a with
      | call v => exact absurd rfl (ha rfl v)
      | _ => rfl
    have hleft := tryPush_left hahead h hvalue
    have hothers := tryPush_others h
    simp only [if_true,Function.update_self]
    omega
  · have hdelay : (producers t).left m'.head+2*others t m.pushes ≤
        (producers t).left m.head+2*others t m'.pushes := tryPush_meanwhile hu h
    simp only [if_neg hu,Function.update_of_ne (Ne.symm hu)]
    omega

theorem inCall_update (h : tryPush m u (producers u) a = some (m',pc'))
    (hcall : (producers t).InCall) : (Function.update producers u pc' t).InCall := by
  by_cases hu : t = u
  · subst hu
    rw [Function.update_self]
    exact tryPush_inCall h
  · rwa [Function.update_of_ne hu]

end Push

/-! ### The queue with one consumer -/

namespace MpscQueue

variable {cap : Capacity} {ι τ : Type*} [DecidableEq ι] {s s' u : State cap ι τ} {t : ι}

/-- What `f` counts in the accesses of producer `t`. -/
def Action.pushOf (t : ι) (f : PushAction τ → ℕ) : Action ι τ → ℕ
  | .push u a => if u = t then f a else 0
  | .pop _ => 0

def counted (t : ι) (f : PushAction τ → ℕ) (as : List (Action ι τ)) : ℕ :=
  (as.map (Action.pushOf t f)).sum

/-- Producer `t` does not begin another call. -/
def Same (t : ι) (a : Action ι τ) : Prop := ∀ v, a ≠ .push t (.call v)

theorem step_pays {a : Action ι τ} (h : Sound s) (ha : Same t a) (hstep : step s a = some s') :
    a.pushOf t PushAction.accesses+(s'.producers t).left s'.mem.head+2*others t s.mem.pushes ≤
      (s.producers t).left s.mem.head
        +2*(others t s'.mem.pushes+a.pushOf t PushAction.failures) := by
  cases a with
  | push w a =>
    obtain ⟨r,hr⟩ := h
    obtain ⟨m,pc,hpush,rfl⟩ := step_push hstep
    refine tryPush_pays hr.sim.not_ahead hpush fun hw v hv => ?_
    exact ha v (by rw [hw,hv])
  | pop a =>
    obtain ⟨hpushes,hhead,hproducers,-⟩ := tryPop_frame hstep
    simp only [Action.pushOf,hpushes,hhead,hproducers]
    omega

theorem step_stays {a : Action ι τ} (h : (s.producers t).InCall) (hstep : step s a = some s') :
    (s'.producers t).InCall := by
  cases a with
  | push w a =>
    obtain ⟨m,pc,hpush,rfl⟩ := step_push hstep
    exact inCall_update hpush h
  | pop a =>
    obtain ⟨-,-,hproducers,-⟩ := tryPop_frame hstep
    rwa [hproducers]

/-- A call of `try_push` goes on for six accesses, and for two more with each position that
another producer claims meanwhile and each spurious failure. It is never stuck. -/
theorem run_retries {as bs : List (Action ι τ)} {v : τ}
    (hrun : Transition.run step start as = some s) (hpc : s.producers t = .loadHead v)
    (hsame : ∀ a ∈ bs, Same t a) (hrest : Transition.run step s bs = some u)
    (hb : u.mem.pushes.length ≤ 2^64) :
    counted t PushAction.accesses bs ≤
        6+2*(others t (u.mem.pushes.drop s.mem.pushes.length)+counted t PushAction.failures bs) ∧
      ((∃ ok, u.producers t = .returned ok) ∨ (step u (.push t .step)).isSome = true) := by
  have hreach := Transition.Reachable.run .start hrest
  have hpast (s : State cap ι τ) a s' (hstep : step s a = some s')
      (hb : s'.mem.pushes.length ≤ 2^64) : s.mem.pushes.length ≤ 2^64 :=
    (step_pushes hstep).length_le.trans hb
  have hpaid := Transition.run_pays (fun s => (s.producers t).left s.mem.head)
    (fun s => others t s.mem.pushes) (fun _ => Action.pushOf t PushAction.accesses)
    (fun _ => Action.pushOf t PushAction.failures) 2 hpast
    (fun _ _ _ ⟨_,hr⟩ hb _ hstep => step_inv hr hb hstep)
    (fun _ _ _ hs _ ha hstep => step_pays hs ha hstep)
    (reachable_sound (Transition.Reachable.run .start hrun) (hreach.back hpast hb))
    (Transition.admits_of_forall hsame) hrest hb
  have hgrown := hreach.invariant (P := fun u => s.mem.pushes <+: u.mem.pushes) List.prefix_rfl
    fun _ _ _ h _ hstep => h.trans (step_pushes hstep)
  have hcall := hreach.invariant (P := fun u => (u.producers t).InCall) (by rw [hpc]; trivial)
    fun _ _ _ h _ hstep => step_stays h hstep
  constructor
  · rw [Transition.tally_action _ hrest,Transition.tally_action _ hrest,others_drop hgrown,hpc]
      at hpaid
    simp only [PushPc.left] at hpaid
    unfold counted
    omega
  · rcases tryPush_enabled hcall with hdone | hmore
    · exact .inl hdone
    · exact .inr (by simpa [step] using hmore)

/-- Between two accesses of one producer another claims the position it compared with; its next
compare-exchange fails spuriously. -/
def overtaken : List (Action Bool ℕ) :=
  [.push true .step,.push false (.call 8),.push false .step,.push true .step,.push false .step,
    .push false .step,.push true .step,.push true .step,.push true .spurious,.push true .step,
    .push true .step,.push true .step,.push true .step,.push true .step]

theorem run_retries_overtaken : ∃ s u : State Capacity.two Bool ℕ,
    Transition.run step start [.push true (.call 7)] = some s ∧
    Transition.run step s overtaken = some u ∧
    counted true PushAction.accesses overtaken ≤
      6+2*(others true (u.mem.pushes.drop s.mem.pushes.length)
        +counted true PushAction.failures overtaken) := by
  obtain ⟨s,u,hcall,hpc,hrest,hb⟩ : ∃ s u : State Capacity.two Bool ℕ,
      Transition.run step start [.push true (.call 7)] = some s ∧ s.producers true = .loadHead 7 ∧
      Transition.run step s overtaken = some u ∧ u.mem.pushes.length = 2 :=
    ⟨_,_,rfl,rfl,rfl,rfl⟩
  refine ⟨s,u,hcall,hrest,(run_retries hcall hpc (fun a ha v hv => ?_) hrest (by omega)).1⟩
  subst hv
  simp [overtaken] at ha

end MpscQueue

/-! ### The queue with any number of consumers -/

namespace MpmcQueue

variable {cap : Capacity} {ι κ τ : Type*}

/-- The accesses a consumer is from its return, as long as nobody else claims a position. -/
def PopPc.left (tail : UInt64) : PopPc τ → ℕ
  | .idle => 0
  | .loadTail => 6
  | .loadSeq pos => 5+stale tail pos
  | .compareExchange pos => 4+stale tail pos
  | .move _ => 3
  | .destroy _ _ => 2
  | .release _ _ => 1
  | .returned _ => 0

theorem PopPc.left_le (pc : PopPc τ) (x y : UInt64) : pc.left x ≤ pc.left y+2 := by
  cases pc with
  | loadSeq pos =>
    have := stale_le x pos
    simp only [left]
    omega
  | compareExchange pos =>
    have := stale_le x pos
    simp only [left]
    omega
  | _ => exact Nat.le_add_right ..

def PopPc.InCall : PopPc τ → Prop
  | .idle => False
  | _ => True

@[simp] def PopAction.accesses : PopAction → ℕ
  | .call => 0
  | .step => 1
  | .spurious => 1

@[simp] def PopAction.failures : PopAction → ℕ
  | .call => 0
  | .step => 0
  | .spurious => 1

/-- What `f` counts in the accesses of producer `t`. -/
def Action.pushOf [DecidableEq ι] (t : ι) (f : PushAction τ → ℕ) : Action ι κ τ → ℕ
  | .push u a => if u = t then f a else 0
  | .pop _ _ => 0

/-- What `f` counts in the accesses of consumer `k`. -/
def Action.popOf [DecidableEq κ] (k : κ) (f : PopAction → ℕ) : Action ι κ τ → ℕ
  | .push _ _ => 0
  | .pop j a => if j = k then f a else 0

variable {s s' u : State cap ι κ τ} {r : Ring cap.n ι κ} {t : ι} {k j : κ} {a : PopAction}

/-- The slot at the tail is never ahead of the tail. -/
theorem Inv.not_ahead (h : Inv s r) :
    ¬0 < signedDiff (s.mem.seq (cap.slot s.tail)) (s.tail+1) := by
  have hnext : s.tail+1 = UInt64.ofNat (r.tail+1) := by
    rw [h.tail]
    exact (UInt64.ofNat_add r.tail 1).symm
  rw [hnext,h.sim.seq,h.tail]
  exact signedDiff_not_pos cap.lt_half (r.shown_tail (cap.slot_ofNat r.tail).symm)

section Pop

variable [DecidableEq κ]

/-- An access of the consumer itself. -/
theorem tryPop_left (hahead : ¬0 < signedDiff (s.mem.seq (cap.slot s.tail)) (s.tail+1))
    (h : tryPop s k (s.consumers k) a = some s') (ha : a ≠ .call) :
    a.accesses+(s'.consumers k).left s'.tail ≤ (s.consumers k).left s.tail+2*a.failures := by
  unfold tryPop at h
  split at h
  · exact absurd rfl ha
  · exact absurd rfl ha
  · next hpc =>
    cases h
    simp [hpc,PopPc.left]
  · next pos hpc =>
    simp only at h
    split_ifs at h with hzero hneg
    · cases h
      simp only [hpc,PopAction.accesses,PopAction.failures,PopPc.left,Function.update_self]
      omega
    · cases h
      simp only [hpc,PopAction.accesses,PopAction.failures,PopPc.left,Function.update_self]
      omega
    · cases h
      have hstale : s.tail ≠ pos := by
        rintro rfl
        exact hahead (Int64.lt_of_le_of_ne (Int64.not_lt.mp hneg) (Ne.symm hzero))
      simp [hpc,PopPc.left,stale_of_ne hstale]
  · next pos hpc =>
    split_ifs at h with heq
    · cases h
      simp [hpc,PopPc.left,heq]
    · cases h
      simp [hpc,PopPc.left,stale_of_ne heq]
  · next pos hpc =>
    cases h
    simp only [hpc,PopAction.accesses,PopAction.failures,PopPc.left,stale_self,
      Function.update_self]
    omega
  · next pos hpc =>
    split at h
    · cases h
      simp [hpc,PopPc.left]
    · cases h
  · next pos out hpc =>
    cases h
    simp [hpc,PopPc.left]
  · next pos out hpc =>
    cases h
    simp [hpc,PopPc.left]
  · cases h

/-- What a step of a consumer does to the others and to the producers. -/
theorem tryPop_frame (h : tryPop s j (s.consumers j) a = some s') :
    s'.mem.pushes = s.mem.pushes ∧ s'.mem.head = s.mem.head ∧ s'.producers = s.producers ∧
      ∃ pc, pc.InCall ∧ s'.consumers = Function.update s.consumers j pc ∧
        (s'.tail = s.tail ∧ s'.claims = s.claims ∨ ∃ pos, s'.claims = s.claims ++ [(j,pos)]) := by
  rcases tryPop_cases h with ⟨-,pc,rfl,hpc⟩ | ⟨pos,-,-,rfl⟩ | ⟨pos,v,-,-,rfl⟩ | ⟨pos,out,-,rfl⟩ |
    ⟨pos,out,-,rfl⟩
  · refine ⟨rfl,rfl,rfl,pc,?_,rfl,.inl ⟨rfl,rfl⟩⟩
    rcases hpc with rfl | rfl | rfl | ⟨pos,-,-,rfl⟩ <;> trivial
  · exact ⟨rfl,rfl,rfl,.move pos,trivial,rfl,.inr ⟨pos,rfl⟩⟩
  · exact ⟨rfl,rfl,rfl,.destroy pos v,trivial,rfl,.inl ⟨rfl,rfl⟩⟩
  · exact ⟨rfl,rfl,rfl,.release pos out,trivial,rfl,.inl ⟨rfl,rfl⟩⟩
  · exact ⟨rfl,rfl,rfl,.returned (some out),trivial,rfl,.inl ⟨rfl,rfl⟩⟩

/-- A call is never stuck: what a consumer claimed is there to be moved. -/
theorem Inv.enabled (h : Inv s r) (hcall : (s.consumers k).InCall) :
    (∃ out, s.consumers k = .returned out) ∨ (tryPop s k (s.consumers k) .step).isSome = true := by
  have hok := h.consumers k
  cases hpc : s.consumers k with
  | idle =>
    rw [hpc] at hcall
    exact hcall.elim
  | returned out => exact .inl ⟨out,rfl⟩
  | loadSeq pos =>
    simp only [tryPop]
    split_ifs <;> simp
  | compareExchange pos =>
    simp only [tryPop]
    split_ifs <;> simp
  | move pos =>
    rw [hpc] at hok
    obtain ⟨v,hh⟩ := hok
    simp [tryPop,hh.storage]
  | _ => exact .inr rfl

variable [DecidableEq ι]

def countedPush (t : ι) (f : PushAction τ → ℕ) (as : List (Action ι κ τ)) : ℕ :=
  (as.map (Action.pushOf t f)).sum

def countedPop (k : κ) (f : PopAction → ℕ) (as : List (Action ι κ τ)) : ℕ :=
  (as.map (Action.popOf k f)).sum

/-- Producer `t` does not begin another call. -/
def SamePush (t : ι) (a : Action ι κ τ) : Prop := ∀ v, a ≠ .push t (.call v)

/-- Consumer `k` does not begin another call. -/
def SamePop (k : κ) (a : Action ι κ τ) : Prop := a ≠ .pop k .call

theorem push_pays {a : Action ι κ τ} (h : Sound s) (ha : SamePush t a)
    (hstep : step s a = some s') :
    a.pushOf t PushAction.accesses+(s'.producers t).left s'.mem.head+2*others t s.mem.pushes ≤
      (s.producers t).left s.mem.head
        +2*(others t s'.mem.pushes+a.pushOf t PushAction.failures) := by
  cases a with
  | push w a =>
    obtain ⟨r,hr⟩ := h
    obtain ⟨m,pc,hpush,rfl⟩ := step_push hstep
    refine tryPush_pays hr.sim.not_ahead hpush fun hw v hv => ?_
    exact ha v (by rw [hw,hv])
  | pop j a =>
    obtain ⟨hpushes,hhead,hproducers,-⟩ := tryPop_frame hstep
    simp only [Action.pushOf,hpushes,hhead,hproducers]
    omega

theorem push_stays {a : Action ι κ τ} (h : (s.producers t).InCall)
    (hstep : step s a = some s') : (s'.producers t).InCall := by
  cases a with
  | push w a =>
    obtain ⟨m,pc,hpush,rfl⟩ := step_push hstep
    exact inCall_update hpush h
  | pop j a =>
    obtain ⟨-,-,hproducers,-⟩ := tryPop_frame hstep
    rwa [hproducers]

theorem pop_pays {a : Action ι κ τ} (h : Sound s) (ha : SamePop k a)
    (hstep : step s a = some s') :
    a.popOf k PopAction.accesses+(s'.consumers k).left s'.tail+2*others k s.claims ≤
      (s.consumers k).left s.tail+2*(others k s'.claims+a.popOf k PopAction.failures) := by
  cases a with
  | push w a =>
    obtain ⟨m,pc,-,rfl⟩ := step_push hstep
    simp only [Action.popOf]
    omega
  | pop j a =>
    obtain ⟨r,hr⟩ := h
    obtain ⟨-,-,-,pc,-,hconsumers,hclaims⟩ := tryPop_frame hstep
    by_cases hj : j = k
    · subst hj
      have hleft := tryPop_left hr.not_ahead hstep fun hcall => ha (by rw [hcall])
      have hothers : others j s'.claims = others j s.claims := by
        rcases hclaims with ⟨-,hclaims⟩ | ⟨pos,hclaims⟩
        · rw [hclaims]
        · rw [hclaims,others_append,others_own,Nat.add_zero]
      simp only [Action.popOf,if_true]
      omega
    · have hdelay := (s.consumers k).left_le s'.tail s.tail
      rw [hconsumers,Function.update_of_ne (Ne.symm hj)]
      simp only [Action.popOf,if_neg hj]
      rcases hclaims with ⟨htail,hclaims⟩ | ⟨pos,hclaims⟩
      · rw [htail,hclaims]
        omega
      · rw [hclaims,others_append,others_ne hj]
        omega

theorem pop_stays {a : Action ι κ τ} (h : (s.consumers k).InCall)
    (hstep : step s a = some s') : (s'.consumers k).InCall := by
  cases a with
  | push w a =>
    obtain ⟨m,pc,-,rfl⟩ := step_push hstep
    exact h
  | pop j a =>
    obtain ⟨-,-,-,pc,hpc,hconsumers,-⟩ := tryPop_frame hstep
    rw [hconsumers]
    by_cases hk : k = j
    · subst hk
      rwa [Function.update_self]
    · rwa [Function.update_of_ne hk]

theorem claims_grow {a : Action ι κ τ} (hstep : step s a = some s') :
    s.mem.pushes <+: s'.mem.pushes ∧ s.claims <+: s'.claims := by
  cases a with
  | push t a =>
    obtain ⟨m,pc,hpush,rfl⟩ := step_push hstep
    exact ⟨tryPush_grows hpush,List.prefix_rfl⟩
  | pop k a =>
    obtain ⟨hpushes,-,-,pc,-,-,hclaims⟩ := tryPop_frame hstep
    refine ⟨by rw [hpushes],?_⟩
    rcases hclaims with ⟨-,hclaims⟩ | ⟨pos,hclaims⟩
    · rw [hclaims]
    · exact hclaims ▸ List.prefix_append ..

/-- The claims are few enough for the positions to be told apart. -/
def Narrow (s : State cap ι κ τ) : Prop := s.mem.pushes.length < 2^63

theorem Narrow.back {a : Action ι κ τ} (hstep : step s a = some s') (h : Narrow s') : Narrow s :=
  (step_grows hstep).1.trans_lt h

theorem sound_of_narrow (h : Transition.Reachable step (start : State cap ι κ τ) s)
    (hs : Narrow s) : Sound s :=
  h.invariant_of_bound Narrow ⟨_,start_inv⟩ (fun _ _ _ hstep ht => ht.back hstep)
    (fun _ _ _ hs ht _ hstep => hs.step ht hstep) hs

/-- A call of `try_push` goes on for six accesses, and for two more with each position that
another producer claims meanwhile and each spurious failure. It is never stuck. -/
theorem run_push_retries {as bs : List (Action ι κ τ)} {v : τ}
    (hrun : Transition.run step start as = some s) (hpc : s.producers t = .loadHead v)
    (hsame : ∀ a ∈ bs, SamePush t a) (hrest : Transition.run step s bs = some u)
    (hb : u.mem.pushes.length < 2^63) :
    countedPush t PushAction.accesses bs ≤ 6+2*(others t (u.mem.pushes.drop s.mem.pushes.length)
        +countedPush t PushAction.failures bs) ∧
      ((∃ ok, u.producers t = .returned ok) ∨ (step u (.push t .step)).isSome = true) := by
  have hreach := Transition.Reachable.run .start hrest
  have hpaid := Transition.run_pays (fun s => (s.producers t).left s.mem.head)
    (fun s => others t s.mem.pushes) (fun _ => Action.pushOf t PushAction.accesses)
    (fun _ => Action.pushOf t PushAction.failures) 2 (fun _ _ _ hstep ht => Narrow.back hstep ht)
    (fun _ _ _ hs ht _ hstep => hs.step ht hstep)
    (fun _ _ _ hs _ ha hstep => push_pays hs ha hstep)
    (sound_of_narrow (.run .start hrun) (hreach.back (fun _ _ _ hstep ht => ht.back hstep) hb))
    (Transition.admits_of_forall hsame) hrest hb
  have hgrown := hreach.invariant (P := fun u => s.mem.pushes <+: u.mem.pushes) List.prefix_rfl
    fun _ _ _ h _ hstep => h.trans (claims_grow hstep).1
  have hcall := hreach.invariant (P := fun u => (u.producers t).InCall) (by rw [hpc]; trivial)
    fun _ _ _ h _ hstep => push_stays h hstep
  constructor
  · rw [Transition.tally_action _ hrest,Transition.tally_action _ hrest,others_drop hgrown,hpc]
      at hpaid
    simp only [PushPc.left] at hpaid
    unfold countedPush
    omega
  · rcases tryPush_enabled hcall with hdone | hmore
    · exact .inl hdone
    · exact .inr (by simpa [step] using hmore)

/-- Between two accesses of one producer another claims the position it compared with; its next
compare-exchange fails spuriously. -/
def overtaken : List (Action Bool Bool ℕ) :=
  [.push true .step,.push false (.call 8),.push false .step,.push true .step,.push false .step,
    .push false .step,.push true .step,.push true .step,.push true .spurious,.push true .step,
    .push true .step,.push true .step,.push true .step,.push true .step]

theorem run_push_retries_overtaken : ∃ s u : State Capacity.two Bool Bool ℕ,
    Transition.run step start [.push true (.call 7)] = some s ∧
    Transition.run step s overtaken = some u ∧
    countedPush true PushAction.accesses overtaken ≤
      6+2*(others true (u.mem.pushes.drop s.mem.pushes.length)
        +countedPush true PushAction.failures overtaken) := by
  obtain ⟨s,u,hcall,hpc,hrest,hb⟩ : ∃ s u : State Capacity.two Bool Bool ℕ,
      Transition.run step start [.push true (.call 7)] = some s ∧ s.producers true = .loadHead 7 ∧
      Transition.run step s overtaken = some u ∧ u.mem.pushes.length = 2 :=
    ⟨_,_,rfl,rfl,rfl,rfl⟩
  refine ⟨s,u,hcall,hrest,(run_push_retries hcall hpc (fun a ha v hv => ?_) hrest (by omega)).1⟩
  subst hv
  simp [overtaken] at ha

/-- A call of `try_pop` goes on for six accesses, and for two more with each position that
another consumer claims meanwhile and each spurious failure. It is never stuck. -/
theorem run_pop_retries {as bs : List (Action ι κ τ)}
    (hrun : Transition.run step start as = some s) (hpc : s.consumers k = .loadTail)
    (hsame : ∀ a ∈ bs, SamePop k a) (hrest : Transition.run step s bs = some u)
    (hb : u.mem.pushes.length < 2^63) :
    countedPop k PopAction.accesses bs ≤ 6+2*(others k (u.claims.drop s.claims.length)
        +countedPop k PopAction.failures bs) ∧
      ((∃ out, u.consumers k = .returned out) ∨ (step u (.pop k .step)).isSome = true) := by
  have hreach := Transition.Reachable.run .start hrest
  have hsound := sound_of_narrow (.run .start hrun)
    (hreach.back (fun _ _ _ hstep ht => ht.back hstep) hb)
  have hpaid := Transition.run_pays (fun s => (s.consumers k).left s.tail)
    (fun s => others k s.claims) (fun _ => Action.popOf k PopAction.accesses)
    (fun _ => Action.popOf k PopAction.failures) 2 (fun _ _ _ hstep ht => Narrow.back hstep ht)
    (fun _ _ _ hs ht _ hstep => hs.step ht hstep)
    (fun _ _ _ hs _ ha hstep => pop_pays hs ha hstep) hsound
    (Transition.admits_of_forall hsame) hrest hb
  have hgrown := hreach.invariant (P := fun u => s.claims <+: u.claims) List.prefix_rfl
    fun _ _ _ h _ hstep => h.trans (claims_grow hstep).2
  have hcall := hreach.invariant (P := fun u => (u.consumers k).InCall) (by rw [hpc]; trivial)
    fun _ _ _ h _ hstep => pop_stays h hstep
  constructor
  · rw [Transition.tally_action _ hrest,Transition.tally_action _ hrest,others_drop hgrown,hpc]
      at hpaid
    simp only [PopPc.left] at hpaid
    unfold countedPop
    omega
  · obtain ⟨r,hr⟩ := sound_of_narrow ((Transition.Reachable.run .start hrun).run hrest) hb
    exact hr.enabled hcall

/-- Two values are in the queue, and a consumer has begun a call. -/
def filled : List (Action Bool Bool ℕ) :=
  [.push true (.call 7),.push true .step,.push true .step,.push true .step,.push true .step,
    .push true .step,.push true .step,
    .push true (.call 8),.push true .step,.push true .step,.push true .step,.push true .step,
    .push true .step,.push true .step,.pop true .call]

/-- Another consumer takes the value the first one compared for. -/
def taken : List (Action Bool Bool ℕ) :=
  [.pop true .step,.pop false .call,.pop false .step,.pop true .step,.pop false .step,
    .pop false .step,.pop true .step,.pop true .step,.pop true .spurious,.pop true .step,
    .pop true .step,.pop true .step,.pop true .step,.pop true .step]

theorem run_pop_retries_taken : ∃ s u : State Capacity.two Bool Bool ℕ,
    Transition.run step start filled = some s ∧ Transition.run step s taken = some u ∧
    countedPop true PopAction.accesses taken ≤
      6+2*(others true (u.claims.drop s.claims.length)
        +countedPop true PopAction.failures taken) := by
  obtain ⟨s,u,hcall,hpc,hrest,hb⟩ : ∃ s u : State Capacity.two Bool Bool ℕ,
      Transition.run step start filled = some s ∧ s.consumers true = .loadTail ∧
      Transition.run step s taken = some u ∧ u.mem.pushes.length = 2 :=
    ⟨_,_,rfl,rfl,rfl,rfl⟩
  refine ⟨s,u,hcall,hrest,(run_pop_retries hcall hpc (fun a ha heq => ?_) hrest (by omega)).1⟩
  subst heq
  simp [taken] at ha

end Pop

end MpmcQueue
end Marketlib
