import Mathlib.Data.Int.CardIntervalMod
import Marketlib.RoutingBounds
import Marketlib.ThreadPool

/-! How `submit_any` spreads its tasks. The counter is one for all threads, so that up to its
wrap-around the workers take their turns whatever the order of the submits. -/

namespace Marketlib
namespace ThreadPool

variable {cap : Capacity} {maxWorkers : ℕ} {ι Key τ : Type*}

/-- The calls of `submit_any`, in the order of their increments of `rr_counter_`. -/
def State.anys (s : State cap maxWorkers ι Key τ) : List (Submission maxWorkers ι Key τ) :=
  s.submitted.filter fun x => x.route.isAny

/-- The workers in the order of a counter that wraps. -/
def turns (n c : ℕ) : List ℕ := (List.range c).map fun k => (UInt64.ofNat k).toNat % n

theorem turns_succ (n c : ℕ) : turns n (c+1) = turns n c ++ [(UInt64.ofNat c).toNat % n] := by
  rw [turns,List.range_succ,List.map_append]
  rfl

/-- Up to the wrap-around each worker has had as many turns as there were rounds, and one more
where the round under way has come to it. -/
theorem count_turns {n c w : ℕ} (hw : w < n) (hc : c ≤ 2^64) :
    (turns n c).count w = c/n+if w < c % n then 1 else 0 := by
  have hcount := Nat.count_modEq_card (b := c) (r := n) (Nat.zero_lt_of_lt hw) w
  rw [Nat.mod_eq_of_lt hw] at hcount
  rw [← hcount,turns,List.count,List.countP_map,Nat.count]
  refine List.countP_congr fun k hk => ?_
  have hword : (UInt64.ofNat k).toNat = k :=
    UInt64.toNat_ofNat_of_lt' ((List.mem_range.mp hk).trans_le hc)
  simp [-UInt64.toNat_ofNat',Nat.ModEq,Nat.mod_eq_of_lt hw,hword]

section Step

variable [DecidableEq ι] {p : Layout maxWorkers} {hash : Key → UInt64}
  {s s' : State cap maxWorkers ι Key τ}

omit [DecidableEq ι] in
theorem target_any {rr : UInt64} {w : Fin maxWorkers} (h : target p hash rr .any = some w) :
    w.val = rr.toNat % p.numWorkers := by
  change pick maxWorkers _ 0 p.numWorkers = _ at h
  unfold pick at h
  split_ifs at h
  cases h
  exact Nat.zero_add _

/-- The calls of `submit_any` have gone to the workers in turn. -/
structure Rotates (p : Layout maxWorkers) (s : State cap maxWorkers ι Key τ) : Prop where
  rr : s.rr = UInt64.ofNat s.anys.length
  workers : s.anys.map (fun x => x.worker.val) = turns p.numWorkers s.anys.length

omit [DecidableEq ι] in
theorem start_rotates : Rotates p (start : State cap maxWorkers ι Key τ) := ⟨rfl,rfl⟩

omit [DecidableEq ι] in
theorem Rotates.congr (h : Rotates p s) (hrr : s'.rr = s.rr) (hanys : s'.anys = s.anys) :
    Rotates p s' := ⟨by rw [hrr,hanys]; exact h.rr,by rw [hanys]; exact h.workers⟩

theorem submit_rotates (h : Rotates p s) {t : ι} {route : Route Key} {task : τ}
    (hstep : submit p hash s t route task = some s') : Rotates p s' := by
  unfold submit at hstep
  split at hstep
  · next w hcalling htarget =>
    obtain ⟨q,hq,hs⟩ := Option.bind_eq_some_iff.mp hstep
    cases hs
    cases route with
    | any =>
      let x : Submission maxWorkers ι Key τ := ⟨s.submitted.length,t,.any,w,task⟩
      have hanys : (s.submitted ++ [x]).filter (fun x => x.route.isAny) = s.anys ++ [x] := by
        rw [List.filter_append]
        rfl
      have hturn : w.val = (UInt64.ofNat s.anys.length).toNat % p.numWorkers := by
        rw [← h.rr]
        exact target_any htarget
      constructor
      · change s.rr+1 = _
        rw [State.anys,hanys,h.rr,List.length_append]
        exact (UInt64.ofNat_add _ 1).symm
      · rw [State.anys,hanys,List.map_append,h.workers,List.length_append]
        exact (congrArg (turns _ _ ++ [·]) hturn).trans (turns_succ _ _).symm
    | _ =>
      refine h.congr rfl ?_
      rw [State.anys,List.filter_append]
      exact List.append_nil _
  · cases hstep

theorem step_rotates (h : Rotates p s) {a : Action ι Key τ} (hstep : step p hash s a = some s') :
    Rotates p s' := by
  cases a with
  | submit t route task => exact submit_rotates h hstep
  | push t spurious =>
    obtain ⟨x,q,a,-,-,-,⟨-,rfl⟩ | ⟨-,rfl⟩ | ⟨-,rfl⟩⟩ := push_cases hstep <;> exact h.congr rfl rfl
  | worker i =>
    simp only [step] at hstep
    split_ifs at hstep with hi
    rcases workerLoop_cases hstep with ⟨-,-,rfl⟩ | ⟨_,_,-,-,rfl⟩ |
      ⟨_,_,-,-,⟨_,-,rfl⟩ | ⟨-,rfl⟩ | ⟨-,rfl⟩⟩ | ⟨_,_,-,rfl⟩ <;> exact h.congr rfl rfl
  | stop =>
    rcases stop_cases hstep with ⟨_,-,-,rfl⟩ | ⟨_,-,-,rfl⟩ | ⟨_,-,-,-,rfl⟩ | ⟨_,-,-,rfl⟩ |
      ⟨-,-,rfl⟩ | ⟨-,-,rfl⟩ <;> exact h.congr rfl rfl

/-- Up to `2^64` calls of `submit_any`, in whatever order the threads make them, each registered
worker has been given as many as there were whole rounds, and one more where the round under way
has come to it. -/
theorem run_any_balanced {as : List (Action ι Key τ)}
    (hrun : Transition.run (step p hash) start as = some s) (hb : s.anys.length ≤ 2^64)
    {w : Fin maxWorkers} (hw : w.val < p.numWorkers) :
    s.anys.countP (fun x => x.worker = w) =
      s.anys.length/p.numWorkers+if w.val < s.anys.length % p.numWorkers then 1 else 0 := by
  have h : Rotates p s := (Transition.Reachable.run .start hrun).invariant start_rotates
    fun _ _ _ h _ hstep => step_rotates h hstep
  rw [← count_turns hw hb,← h.workers,List.count,List.countP_map]
  refine List.countP_congr fun x _ => ?_
  simp [Fin.ext_iff]

end Step

def trio : Layout 3 := Layout.empty.spawnGroup 3 (le_refl 3)

/-- Two threads submit in turn to three workers. -/
def alternating : List (Action Bool Unit ℕ) :=
  (List.range 5).flatMap fun k =>
    .submit (k % 2 == 0) .any k :: List.replicate 6 (.push (k % 2 == 0) false)

theorem run_any_balanced_alternating : ∃ s : State Capacity.two 3 Bool Unit ℕ,
    Transition.run (step trio fun _ => 0) start alternating = some s ∧ s.anys.length = 5 ∧
      s.anys.countP (fun x => x.worker = 1) =
        s.anys.length/trio.numWorkers+if (1 : ℕ) < s.anys.length % trio.numWorkers then 1
          else 0 := by
  obtain ⟨s,hrun,hlength⟩ : ∃ s : State Capacity.two 3 Bool Unit ℕ,
      Transition.run (step trio fun _ => 0) start alternating = some s ∧ s.anys.length = 5 :=
    ⟨_,rfl,rfl⟩
  exact ⟨s,hrun,hlength,run_any_balanced hrun (by omega) (by decide)⟩

end ThreadPool
end Marketlib
