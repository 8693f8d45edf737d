import Mathlib.Algebra.BigOperators.Fin
import Mathlib.Algebra.Order.BigOperators.Group.Finset
import Mathlib.Tactic.Ring
import Marketlib.Disruptor
import Marketlib.Progress

/-! How the ring comes to rest. A full ring holds up the publisher and an empty one a consumer; the
other steps bring what was published, or was about to be, to every consumer. -/

namespace Marketlib
namespace Disruptor

variable {cap : Capacity} {m : ℕ} {τ : Type*} {s t : State cap m τ}

/-- Neither a new event, nor a second look at one, nor a test that cannot succeed: of the producer's
cursor by a consumer that is up to date, or of the minimum while a consumer is a ring behind. -/
def Useful (s : State cap m τ) : Action m τ → Prop
  | .producer (.publish _) => False
  | .producer .compare => ∀ c, s.published.length < s.finished c+cap.n
  | .producer _ => True
  | .consumer c .wait => s.finished c < s.published.length
  | .consumer _ .look => False
  | .consumer _ .consumed => True

instance decidableUseful (s : State cap m τ) : ∀ a, Decidable (Useful s a)
  | .producer (.publish _) => inferInstanceAs (Decidable False)
  | .producer .compare =>
    inferInstanceAs (Decidable (∀ c, s.published.length < s.finished c+cap.n))
  | .producer .load | .producer .write | .producer .commit => inferInstanceAs (Decidable True)
  | .consumer c .wait => inferInstanceAs (Decidable (s.finished c < s.published.length))
  | .consumer _ .look => inferInstanceAs (Decidable False)
  | .consumer _ .consumed => inferInstanceAs (Decidable True)

/-- The events that will have been published when the publisher is idle. -/
def State.total (s : State cap m τ) : ℕ :=
  s.published.length+match s.publisher with
    | .idle => 0
    | _ => 1

theorem State.total_of_idle (h : s.publisher = .idle) : s.total = s.published.length := by
  rw [State.total,h]
  rfl

theorem State.published_le_total (s : State cap m τ) : s.published.length ≤ s.total :=
  Nat.le_add_right _ _

/-- The steps that a consumer has still to take. -/
def State.lag (s : State cap m τ) (c : Fin m) : ℕ :=
  2*(s.total-s.finished c)-(s.reading c).toNat

/-- As things stand, the scan from cursor `i` on has to be repeated. -/
def State.repeats (s : State cap m τ) (next : Int64) (i : ℕ) (min : Int64) : Bool :=
  cap.signed < next-min ||
    (List.finRange m).any fun c => i ≤ c.val && s.finished c+cap.n ≤ s.published.length

theorem State.repeats_iff {next min : Int64} {i : ℕ} : s.repeats next i min = true ↔
    cap.signed < next-min ∨
      ∃ c : Fin m, i ≤ c.val ∧ s.finished c+cap.n ≤ s.published.length := by
  simp [State.repeats]

/-- The steps that the publisher has still to take, unless consumers hold it up again. -/
def Producer.left (s : State cap m τ) : Producer τ → ℕ
  | .idle => 0
  | .scan _ next i min => m-i+3+if s.repeats next i min then m+1 else 0
  | .write _ _ => 2
  | .commit _ => 1

def State.work (s : State cap m τ) : ℕ := ∑ c, s.lag c+s.publisher.left s

/-! ### The steps -/

theorem repeats_mono {next min : Int64} {i : ℕ} (hpublished : t.published = s.published)
    (hdone : ∀ c, s.finished c ≤ t.finished c) (h : t.repeats next i min = true) :
    s.repeats next i min = true := by
  rw [State.repeats_iff] at h ⊢
  refine h.imp_right fun ⟨c,hc,hbehind⟩ => ⟨c,hc,?_⟩
  rw [hpublished] at hbehind
  exact (Nat.add_le_add_right (hdone c) _).trans hbehind

theorem Producer.left_mono (pc : Producer τ) (hpublished : t.published = s.published)
    (hdone : ∀ c, s.finished c ≤ t.finished c) : pc.left t ≤ pc.left s := by
  cases pc with
  | scan event next i min =>
    refine Nat.add_le_add_left ?_ _
    split_ifs with ht hs
    · exact le_rfl
    · exact absurd (repeats_mono hpublished hdone ht) hs
    · exact Nat.zero_le _
    · exact le_rfl
  | _ => exact le_rfl

/-- The load of a cursor is no reason for another scan unless its consumer is a ring behind. -/
theorem repeats_load (h : Inv s) {event : τ} {next min : Int64} {i : ℕ} (hi : i < m)
    (hp : s.publisher = .scan event next i min)
    (hrepeats : s.repeats next (i+1)
      (if s.consumers ⟨i,hi⟩ < min then s.consumers ⟨i,hi⟩ else min) = true) :
    s.repeats next i min = true := by
  obtain ⟨hnext,-,-⟩ := h.publisher_at hp
  rw [State.repeats_iff] at hrepeats ⊢
  rcases hrepeats with hfull | ⟨c,hc,hbehind⟩
  · split_ifs at hfull with hless
    · have hcursor := h.consumers ⟨i,hi⟩
      have hdone := h.finished_le ⟨i,hi⟩
      have hnear := h.near ⟨i,hi⟩
      have hcap := cap.addressable
      rw [Int64.lt_iff_toInt_lt,cap.signed_toInt,
        toInt_sub_near (by omega) (by omega)] at hfull
      exact .inr ⟨⟨i,hi⟩,le_rfl,by omega⟩
    · exact .inl hfull
  · exact .inr ⟨c,by omega,hbehind⟩

theorem not_repeats_start (h : Inv s) {event : τ} {next min : Int64} {i : ℕ}
    (hp : s.publisher = .scan event next i min)
    (hnear : ∀ c, s.published.length < s.finished c+cap.n) :
    s.repeats next 0 Int64.maxValue = false := by
  obtain ⟨hnext,-,-⟩ := h.publisher_at hp
  rw [← Bool.not_eq_true,State.repeats_iff]
  rintro (hfull | ⟨c,-,hbehind⟩)
  · have hlow := next.toInt_lt
    rw [Int64.lt_iff_toInt_lt,cap.signed_toInt,toInt_sub_near
      (by rw [Int64.toInt_maxValue]; omega) (by rw [Int64.toInt_maxValue]; omega),
      Int64.toInt_maxValue] at hfull
    omega
  · exact absurd (hnear c) (not_lt.mpr hbehind)

theorem left_load {event : τ} {next min low : Int64} {i : ℕ} (hi : i < m)
    (hload : s.repeats next (i+1) low = true → s.repeats next i min = true) :
    (Producer.scan event next (i+1) low).left s < (Producer.scan event next i min).left s := by
  simp only [Producer.left]
  split_ifs with hlater hnow
  · omega
  · exact absurd (hload hlater) hnow
  · omega
  · omega

/-- A useful step of the publisher. -/
theorem stepProducer_useful (h : Inv s) {a : ProducerAction τ} (ha : Useful s (.producer a))
    (hstep : stepProducer s s.publisher a = some t) :
    t.total = s.total ∧ t.finished = s.finished ∧ t.reading = s.reading ∧
      t.publisher.left t < s.publisher.left s := by
  rcases stepProducer_cases hstep with ⟨event,hp,rfl⟩ | ⟨event,next,i,min,hi,hp,rfl⟩ |
    ⟨event,next,i,min,hp,hfull,rfl⟩ | ⟨event,next,i,min,hp,hi,hroom,rfl⟩ |
    ⟨event,next,hp,rfl⟩ | ⟨event,hp,rfl⟩
  · -- a publish is not useful
    rw [hp] at hstep
    cases a with
    | publish event => exact ha.elim
    | _ => cases hstep
  · refine ⟨?_,rfl,rfl,?_⟩
    · simp only [State.total,hp]
    · rw [hp]
      exact left_load hi (repeats_load h hi hp)
  · have hcompare : a = .compare := by
      rw [hp] at hstep
      cases a with
      | compare => rfl
      | load =>
        simp only [stepProducer] at hstep
        split_ifs at hstep <;> cases hstep
      | _ => cases hstep
    subst hcompare
    refine ⟨?_,rfl,rfl,?_⟩
    · simp only [State.total,hp]
    · have hnow : s.repeats next i min = true := State.repeats_iff.mpr (.inl hfull)
      have hlater := not_repeats_start h hp ha
      simp only [hp,Producer.left,hnow,if_true]
      change m-0+3+(if s.repeats _ _ _ then _ else _) < _
      rw [hlater]
      simp only [Bool.false_eq_true,if_false]
      omega
  · refine ⟨?_,rfl,rfl,?_⟩
    · simp only [State.total,hp]
    · simp only [hp,Producer.left]
      omega
  · refine ⟨?_,rfl,rfl,?_⟩
    · simp only [State.total,hp]
    · simp only [hp,Producer.left]
      omega
  · refine ⟨?_,rfl,rfl,?_⟩
    · simp [State.total,hp]
    · simp [hp,Producer.left]

/-- A useful step of a consumer. -/
theorem stepConsumer_useful (h : Inv s) {c : Fin m} {a : ConsumerAction}
    (ha : Useful s (.consumer c a)) (hstep : stepConsumer s c a = some t) :
    t.total = s.total ∧ (∀ d, d ≠ c → t.lag d = s.lag d) ∧ t.lag c < s.lag c ∧
      t.publisher.left t ≤ s.publisher.left s := by
  have htotal := s.published_le_total
  cases a with
  | wait =>
    have hbehind : ¬s.producer < s.tokens c := by
      have hless : s.finished c < s.published.length := ha
      rw [Int64.lt_iff_toInt_lt,h.producer,h.tokens]
      omega
    simp only [stepConsumer,if_neg hbehind] at hstep
    split_ifs at hstep with hreading
    cases hstep
    refine ⟨rfl,fun d hd => ?_,?_,s.publisher.left_mono rfl fun _ => le_rfl⟩
    · simp only [State.lag,Function.update_of_ne hd]
      rfl
    · have hless : s.finished c < s.published.length := ha
      simp only [State.lag,Function.update_self,Bool.eq_false_of_not_eq_true hreading]
      change 2*(s.total-s.finished c)-1 < 2*(s.total-s.finished c)-0
      omega
  | look => exact ha.elim
  | consumed =>
    simp only [stepConsumer] at hstep
    split_ifs at hstep with hreading
    cases hstep
    refine ⟨rfl,fun d hd => ?_,?_,s.publisher.left_mono rfl (le_finished c)⟩
    · simp only [State.lag,Function.update_of_ne hd]
      rfl
    · have hless := h.reading c hreading
      simp only [State.lag,Function.update_self,hreading]
      change 2*(s.total-(s.finished c+1))-0 < 2*(s.total-s.finished c)-1
      omega

theorem step_useful (h : Inv s) {a : Action m τ} (ha : Useful s a) (hstep : step s a = some t) :
    t.total = s.total ∧ t.work < s.work := by
  cases a with
  | producer a =>
    obtain ⟨htotal,hfinished,hreading,hleft⟩ := stepProducer_useful h ha hstep
    refine ⟨htotal,?_⟩
    have hlag : t.lag = s.lag := by
      funext c
      rw [State.lag,State.lag,htotal,hfinished,hreading]
    rw [State.work,State.work,hlag]
    omega
  | consumer c a =>
    obtain ⟨htotal,hothers,hless,hleft⟩ := stepConsumer_useful h ha hstep
    refine ⟨htotal,?_⟩
    have hsum : ∑ d, t.lag d < ∑ d, s.lag d := by
      refine Finset.sum_lt_sum (fun d _ => ?_) ⟨c,Finset.mem_univ c,hless⟩
      by_cases hd : d = c
      · rw [hd]
        exact hless.le
      · exact (hothers d hd).le
    rw [State.work,State.work]
    omega

/-! ### The runs -/

/-- The publisher is idle, and every consumer has consumed all `n` events. -/
structure CaughtUp (n : ℕ) (s : State cap m τ) : Prop where
  publisher : s.publisher = .idle
  published : s.published.length = n
  finished : ∀ c, s.finished c = n

theorem exists_useful (h : Inv s) (hbusy : ¬CaughtUp s.total s) :
    ∃ a, Useful s a ∧ (step s a).isSome = true := by
  by_cases hbehind : ∃ c, s.finished c < s.published.length
  · obtain ⟨c,hc⟩ := hbehind
    by_cases hreading : s.reading c = true
    · exact ⟨.consumer c .consumed,trivial,by simp [step,stepConsumer,hreading]⟩
    · have hready : ¬s.producer < s.tokens c := by
        rw [Int64.lt_iff_toInt_lt,h.producer,h.tokens]
        omega
      exact ⟨.consumer c .wait,hc,by simp [step,stepConsumer,hreading,hready]⟩
  · push Not at hbehind
    have hall c : s.finished c = s.published.length := le_antisymm (h.finished_le c) (hbehind c)
    have hcap := cap.pos
    cases hp : s.publisher with
    | idle =>
      have htotal := State.total_of_idle hp
      exact absurd ⟨hp,htotal.symm,fun c => (hall c).trans htotal.symm⟩ hbusy
    | scan event next i min =>
      by_cases hi : i < m
      · exact ⟨.producer .load,trivial,by simp [step,hp,stepProducer,hi]⟩
      · refine ⟨.producer .compare,fun c => by rw [hall c]; omega,?_⟩
        simp only [step,hp,stepProducer,if_neg hi]
        split_ifs <;> rfl
    | write event next => exact ⟨.producer .write,trivial,by simp [step,hp,stepProducer]⟩
    | commit event => exact ⟨.producer .commit,trivial,by simp [step,hp,stepProducer]⟩

def catchingUp (n : ℕ) (hn : n < 2^63) :
    Transition.Ranking (@step cap m τ) Useful (CaughtUp n) where
  inv s := Inv s ∧ s.total = n
  work := State.work
  keep s a t h ha hstep := by
    obtain ⟨hinv,htotal⟩ := h
    have htotal' := (step_useful hinv ha hstep).1.trans htotal
    have hs := s.published_le_total
    have ht := t.published_le_total
    refine ⟨?_,htotal'⟩
    cases a with
    | producer a => exact stepProducer_inv hinv (by omega) hstep
    | consumer c a => exact stepConsumer_inv hinv (by omega) hstep
  lower s a t h ha hstep := (step_useful h.1 ha hstep).2
  enabled s h hbusy := exists_useful h.1 (h.2.symm ▸ hbusy)

theorem work_le (h : Inv s) : s.work ≤ 2*m*(cap.n+2)+4 := by
  have hlag c : s.lag c ≤ 2*(cap.n+1) := by
    have hnear := h.near c
    have htotal : s.total ≤ s.published.length+1 := by
      unfold State.total
      split <;> omega
    unfold State.lag
    omega
  have hsum : ∑ c, s.lag c ≤ m*(2*(cap.n+1)) := by
    refine (Finset.sum_le_sum fun c _ => hlag c).trans_eq ?_
    rw [Finset.sum_const,Finset.card_univ,Fintype.card_fin,smul_eq_mul]
  have hleft : s.publisher.left s ≤ 2*m+4 := by
    unfold Producer.left
    split <;> (try split_ifs) <;> omega
  rw [State.work]
  calc ∑ c, s.lag c+s.publisher.left s ≤ m*(2*(cap.n+1))+(2*m+4) := Nat.add_le_add hsum hleft
    _ = 2*m*(cap.n+2)+4 := by ring

/-- From any state with fewer than `2^63` events there are at most `2*m*(n+2)+4` useful steps, in
whatever order, and they come to an end only when the publish under way is done and every consumer
has consumed every event. -/
theorem run_catches_up {as bs : List (Action m τ)}
    (hrun : Transition.run step (start : State cap m τ) as = some s) (hb : s.total < 2^63)
    (huseful : Transition.Admits step Useful s bs) (hrest : Transition.run step s bs = some t) :
    bs.length ≤ 2*m*(cap.n+2)+4 ∧
      (CaughtUp s.total t ∨ ∃ a, Useful t a ∧ (step t a).isSome = true) := by
  have hinv := reachable_inv (Transition.reachable_iff_run.mpr ⟨as,hrun⟩)
    (s.published_le_total.trans_lt hb)
  obtain ⟨hlength,ht,htotal⟩ :=
    (catchingUp s.total hb).length_add_work_le ⟨hinv,rfl⟩ huseful hrest
  refine ⟨?_,?_⟩
  · exact (Nat.le_add_right _ _).trans (hlength.trans (work_le hinv))
  · by_cases hdone : CaughtUp s.total t
    · exact .inl hdone
    · exact .inr (exists_useful ht (htotal.symm ▸ hdone))

/-- The ring is full, and a third event waits for both consumers. -/
def heldUp : List (Action 2 ℕ) :=
  [.producer (.publish 7),.producer .load,.producer .load,.producer .compare,.producer .write,
    .producer .commit,.producer (.publish 8),.producer .load,.producer .load,.producer .compare,
    .producer .write,.producer .commit,.producer (.publish 9),.producer .load]

def slow : Fin 2 := ⟨0,Nat.two_pos⟩

def fast : Fin 2 := ⟨1,Nat.one_lt_two⟩

/-- The scan is repeated, as its first load was of a cursor that has moved since. -/
def resumed : List (Action 2 ℕ) :=
  [.consumer slow .wait,.consumer slow .consumed,.consumer fast .wait,.consumer fast .consumed,
    .producer .load,.producer .compare,.producer .load,.producer .load,.producer .compare,
    .producer .write,.producer .commit,.consumer slow .wait,.consumer fast .wait,
    .consumer fast .consumed,.consumer slow .consumed,.consumer fast .wait,.consumer slow .wait,
    .consumer slow .consumed,.consumer fast .consumed]

theorem run_catches_up_resumed : ∃ s t : State Capacity.two 2 ℕ,
    Transition.run step start heldUp = some s ∧ Transition.run step s resumed = some t ∧
      resumed.length ≤ 2*2*(Capacity.two.n+2)+4 ∧
      (CaughtUp s.total t ∨ ∃ a, Useful t a ∧ (step t a).isSome = true) := by
  have hany : ((Transition.run step (start : State Capacity.two 2 ℕ) heldUp).any fun s =>
      s.total < 2^63 && Transition.Admits step Useful s resumed &&
        (Transition.run step s resumed).isSome) = true := by decide +kernel
  obtain ⟨s,hrun,hs⟩ := Option.any_eq_true _ _ |>.mp hany
  simp only [Bool.and_eq_true,decide_eq_true_eq] at hs
  obtain ⟨⟨hb,huseful⟩,hsome⟩ := hs
  obtain ⟨t,hrest⟩ := Option.isSome_iff_exists.mp hsome
  exact ⟨s,t,hrun,hrest,run_catches_up hrun hb huseful hrest⟩

end Disruptor
end Marketlib
