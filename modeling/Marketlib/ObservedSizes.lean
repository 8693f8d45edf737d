import Marketlib.Meter
import Marketlib.SpscQueue
import Marketlib.MpmcQueue

/-! `size()` of the two bounded queues, called by any number of threads while the queue's own
threads go on. `SpscQueue::size()` subtracts the two loads, whose order its expression leaves
to the compiler; `MpmcQueue::size()` loads the head first and returns 0 for a tail that has
passed it. -/

namespace Marketlib

variable {cap : Capacity} {ι κ τ ω : Type*} [DecidableEq ω]

namespace SpscQueue
open Meter

/-- `producer_.value.load() - consumer_.value.load()`. -/
def size (producer consumer : UInt64) : UInt64 := producer-consumer

def meter : Meter (State cap τ) where
  head := State.producer
  tail := State.consumer
  pushed := fun s => s.pushes.length
  popped := fun s => s.pops.length
  size := size
  tailFirst := true

theorem Inv.counts {s : State cap τ} (h : Inv s) : meter.Counts cap.n s where
  head := h.producer
  tail := h.consumer
  popped_le := h.fifo.length_le
  pushed_le := h.bounded

theorem step_grows {s t : State cap τ} {a : Action τ} (h : step s a = some t) :
    s.pushes.length ≤ t.pushes.length ∧ s.pops.length ≤ t.pops.length := by
  cases a with
  | callPush v =>
    obtain ⟨-,rfl⟩ := callPush_cases h
    exact ⟨le_rfl,le_rfl⟩
  | push =>
    rcases tryPush_cases h with ⟨_,-,rfl⟩ | ⟨_,_,-,-,rfl⟩ | ⟨_,_,-,-,rfl⟩ | ⟨_,_,-,rfl⟩ |
      ⟨_,_,-,rfl⟩ | ⟨_,_,-,rfl⟩ <;> simp
  | callPop =>
    obtain ⟨-,rfl⟩ := callPop_cases h
    exact ⟨le_rfl,le_rfl⟩
  | pop =>
    rcases tryPop_cases h with ⟨-,rfl⟩ | ⟨_,-,-,rfl⟩ | ⟨_,-,-,rfl⟩ | ⟨_,_,-,-,rfl⟩ |
      ⟨_,_,-,rfl⟩ | ⟨_,_,-,rfl⟩ <;> simp

theorem size_ofNat {p q : ℕ} (hqp : q ≤ p) :
    size (UInt64.ofNat p) (UInt64.ofNat q) = UInt64.ofNat (p-q) := (UInt64.ofNat_sub hqp).symm

theorem size_le {p q : ℕ} (hqp : q ≤ p) (hp : p ≤ q+cap.n) :
    (size (UInt64.ofNat p) (UInt64.ofNat q)).toNat ≤ cap.n := by
  have hword := cap.addressable
  rw [size_ofNat hqp,UInt64.toNat_ofNat_of_lt' (show p-q < 2^64 by omega)]
  omega

/-- While the counters have not wrapped, only counts that could have been loaded at one
moment give a size of at most `N`. -/
theorem size_le_iff {p q : ℕ} (hp : p+cap.n < 2^64) (hq : q+cap.n < 2^64) :
    (size (UInt64.ofNat p) (UInt64.ofNat q)).toNat ≤ cap.n ↔ q ≤ p ∧ p ≤ q+cap.n := by
  refine ⟨fun hle => ?_,fun h => size_le h.1 h.2⟩
  have hword := cap.addressable
  have hsub : (size (UInt64.ofNat p) (UInt64.ofNat q)).toNat = (2^64 - q + p) % 2^64 := by
    rw [size,UInt64.toNat_sub,UInt64.toNat_ofNat_of_lt' (show p < 2^64 by omega),
      UInt64.toNat_ofNat_of_lt' (show q < 2^64 by omega)]
  rw [hsub] at hle
  omega

/-- Every size is right in a run whose loads are in time. -/
theorem admitted_sizesLe {s : Watched (State cap τ) ω}
    (h : Transition.ReachableBy (meter.step step) (meter.InTime cap.n) (watch start) s) :
    SizesLe cap.n s :=
  Meter.admitted_sizesLe (B := fun _ => True) (fun _ => Inv.counts)
    (fun _ _ _ => step_grows) (fun _ _ _ hs _ hstep => step_inv hs hstep) (fun _ _ _ _ => id)
    start_inv (fun _ _ _ _ _ _ htime _ _ hiff _ => size_le (hiff.mp htime).1 (hiff.mp htime).2) h
    trivial

/-- While the counters have not wrapped, no size is right in a run with a load out of time. -/
theorem sizesLe_iff {as : List (Meter.Action (Action τ) ω)} {s : Watched (State cap τ) ω}
    (hrun : Transition.run (meter.step step) (watch start) as = some s)
    (hb : s.machine.pushes.length+cap.n < 2^64) :
    SizesLe cap.n s ↔ Transition.Admits (meter.step step) (meter.InTime cap.n)
      (watch (start : State cap τ)) as := by
  refine Meter.sizesLe_iff (I := Inv) (B := fun s => s.pushes.length+cap.n < 2^64)
    (fun _ => Inv.counts) (fun _ _ _ => step_grows) (fun _ _ _ hs _ hstep => step_inv hs hstep)
    (fun _ _ _ hstep ht => (Nat.add_le_add_right (step_grows hstep).1 _).trans_lt ht) start_inv
    (fun s p q hs hbs hp hq => ?_) hrun hb
  have hle := hs.fifo.length_le
  exact size_le_iff ((Nat.add_le_add_right hp _).trans_lt hbs)
    ((Nat.add_le_add_right (hq.trans hle) _).trans_lt hbs)

end SpscQueue

namespace MpmcQueue
open Meter

variable [DecidableEq ι] [DecidableEq κ]

def size (h t : UInt64) : UInt64 := if t < h then h-t else 0

def meter : Meter (State cap ι κ τ) where
  head := fun s => s.mem.head
  tail := State.tail
  pushed := fun s => s.mem.pushes.length
  popped := fun s => s.claims.length
  size := size
  tailFirst := false

omit [DecidableEq ι] [DecidableEq κ] in
theorem Sound.counts {s : State cap ι κ τ} (h : Sound s) : meter.Counts cap.n s := by
  obtain ⟨r,hr⟩ := h
  have hclaims : s.claims.length = r.tail := by
    have hlength := congrArg List.length hr.claims
    simpa using hlength
  exact {
    head := hr.sim.head.trans (congrArg _ hr.sim.claims.symm)
    tail := hr.tail.trans (congrArg _ hclaims.symm)
    popped_le := by
      change s.claims.length ≤ s.mem.pushes.length
      rw [hclaims,hr.sim.claims]
      exact r.tail_le
    pushed_le := by
      change s.mem.pushes.length ≤ s.claims.length+cap.n
      rw [hclaims,hr.sim.claims]
      exact r.head_le cap.pos }

theorem size_le {p q : ℕ} (hfit : p ≤ q+cap.n) (hp : p < 2^64) (hq : q < 2^64) :
    (size (UInt64.ofNat p) (UInt64.ofNat q)).toNat ≤ cap.n := by
  have hcap := cap.addressable
  rw [size]
  split_ifs with hlt
  · rw [UInt64.lt_iff_toNat_lt,UInt64.toNat_ofNat_of_lt' hp,UInt64.toNat_ofNat_of_lt' hq] at hlt
    rw [← UInt64.ofNat_sub hlt.le,UInt64.toNat_ofNat_of_lt' (show p-q < 2^64 by omega)]
    omega
  · exact Nat.zero_le _

/-- A tail that has passed the head loaded before it is reported as an empty queue, so the
order of the loads does no harm. -/
theorem reachable_sizesLe {s : Watched (State cap ι κ τ) ω}
    (h : Transition.Reachable (meter.step step) (watch start) s)
    (hb : s.machine.mem.pushes.length < 2^63) : SizesLe cap.n s := by
  refine Meter.admitted_sizesLe (I := Sound) (B := fun s => s.mem.pushes.length < 2^63)
    (fun _ => Sound.counts) (fun _ _ _ => step_grows) (fun _ _ _ hs ht hstep => hs.step ht hstep)
    (fun _ _ _ hstep ht => (step_grows hstep).1.trans_lt ht) ⟨_,start_inv⟩
    (fun s a p q hs hbs _ hp hq _ hfit => ?_) h hb
  have hword : s.machine.mem.pushes.length < 2^64 := hbs.trans (by decide)
  exact size_le (hfit rfl) (hp.trans_lt hword)
    ((hq.trans hs.counts.popped_le).trans_lt hword)

end MpmcQueue

section Runs
open Meter

/-- Sizes are at most `N` in every run of the one queue whose loads are in time, and as long
as nothing wraps in no other; of the other queue they always are. -/
theorem observed_sizes_le [DecidableEq ι] [DecidableEq κ] :
    (∀ (as : List (Meter.Action (SpscQueue.Action τ) ω)) (s : Watched (SpscQueue.State cap τ) ω),
      Transition.run (SpscQueue.meter.step SpscQueue.step) (watch SpscQueue.start) as = some s →
      (Transition.Admits (SpscQueue.meter.step SpscQueue.step) (SpscQueue.meter.InTime cap.n)
        (watch (SpscQueue.start : SpscQueue.State cap τ)) as → SizesLe cap.n s) ∧
      (s.machine.pushes.length+cap.n < 2^64 → SizesLe cap.n s →
        Transition.Admits (SpscQueue.meter.step SpscQueue.step) (SpscQueue.meter.InTime cap.n)
          (watch (SpscQueue.start : SpscQueue.State cap τ)) as)) ∧
    ∀ (as : List (Meter.Action (MpmcQueue.Action ι κ τ) ω))
      (s : Watched (MpmcQueue.State cap ι κ τ) ω),
      Transition.run (MpmcQueue.meter.step MpmcQueue.step) (watch MpmcQueue.start) as = some s →
      s.machine.mem.pushes.length < 2^63 → SizesLe cap.n s := by
  refine ⟨fun as s hrun => ⟨fun hadmits => ?_,fun hb hle => ?_⟩,fun as s hrun hb => ?_⟩
  · exact SpscQueue.admitted_sizesLe (Transition.ReachableBy.start.admits hadmits hrun)
  · exact (SpscQueue.sizesLe_iff hrun hb).mp hle
  · exact MpmcQueue.reachable_sizesLe (Transition.Reachable.run .start hrun) hb

/-- One whole `try_push` and one whole `try_pop` of the queue with one producer. -/
def SpscQueue.pushOne (v : ℕ) : List (Meter.Action (SpscQueue.Action ℕ) Unit) :=
  .act (.callPush v) :: List.replicate 5 (.act .push)

def SpscQueue.popOne : List (Meter.Action (SpscQueue.Action ℕ) Unit) :=
  .act .callPop :: List.replicate 5 (.act .pop)

def MpmcQueue.pushOne (v : ℕ) : List (Meter.Action (MpmcQueue.Action Unit Unit ℕ) Unit) :=
  .act (.push () (.call v)) :: List.replicate 6 (.act (.push () .step))

def MpmcQueue.popOne : List (Meter.Action (MpmcQueue.Action Unit Unit ℕ) Unit) :=
  .act (.pop () .call) :: List.replicate 6 (.act (.pop () .step))

/-- A pop that the reader sees in time, and one that it does not. -/
def SpscQueue.seen : List (Meter.Action (SpscQueue.Action ℕ) Unit) :=
  pushOne 7 ++ [.load () .head] ++ popOne ++ [.load () .tail]

def MpmcQueue.passed : List (Meter.Action (MpmcQueue.Action Unit Unit ℕ) Unit) :=
  [.load () .head] ++ pushOne 7 ++ popOne ++ [.load () .tail]

theorem observed_sizes_le_two :
    (∃ s : Watched (SpscQueue.State Capacity.two ℕ) Unit,
      Transition.run (SpscQueue.meter.step SpscQueue.step) (watch SpscQueue.start)
        SpscQueue.seen = some s ∧ s.sizes = [0] ∧ SizesLe 2 s) ∧
    ∃ s : Watched (MpmcQueue.State Capacity.two Unit Unit ℕ) Unit,
      Transition.run (MpmcQueue.meter.step MpmcQueue.step) (watch MpmcQueue.start)
        MpmcQueue.passed = some s ∧ s.sizes = [0] ∧ SizesLe 2 s := by
  obtain ⟨hspsc,hmpmc⟩ := @observed_sizes_le Capacity.two Unit Unit ℕ Unit _ _ _
  refine ⟨⟨_,rfl,rfl,?_⟩,_,rfl,rfl,?_⟩
  · exact (hspsc SpscQueue.seen _ rfl).1 (by decide +kernel)
  · exact hmpmc MpmcQueue.passed _ rfl (by decide)

/-- The head is loaded, a value goes through the queue and the tail is loaded; or the tail is
loaded first, and three values are pushed while one is popped. -/
theorem SpscQueue.size_of_two_moments :
    (∃ s : Watched (SpscQueue.State Capacity.two ℕ) Unit,
      Transition.run (SpscQueue.meter.step SpscQueue.step) (watch SpscQueue.start)
        ([.load () .head] ++ SpscQueue.pushOne 7 ++ SpscQueue.popOne ++ [.load () .tail]) = some s ∧
      s.sizes.map UInt64.toNat = [2^64-1] ∧ ¬SizesLe 2 s) ∧
    ∃ s : Watched (SpscQueue.State Capacity.two ℕ) Unit,
      Transition.run (SpscQueue.meter.step SpscQueue.step) (watch SpscQueue.start)
        ([.load () .tail] ++ SpscQueue.pushOne 7 ++ SpscQueue.popOne ++ SpscQueue.pushOne 8 ++
          SpscQueue.pushOne 9 ++ [.load () .head]) = some s ∧
      s.sizes = [3] ∧ ¬SizesLe 2 s := by
  refine ⟨⟨_,rfl,rfl,?_⟩,_,rfl,rfl,?_⟩
  · exact fun hle => absurd (hle _ (List.mem_singleton_self _)) (by decide)
  · exact fun hle => absurd (hle _ (List.mem_singleton_self _)) (by decide)

end Runs

end Marketlib
