import Marketlib.StopReturns

/-! The destructor of the queue with one consumer: `while (try_pop(tmp)) {}`, once no call is in
progress. It ends, and it leaves no object behind in any slot. -/

namespace Marketlib
namespace MpscQueue

open TicketRing

variable {cap : Capacity} {ι τ : Type*} {s s' : State cap ι τ} {r : Ring cap.n ι Unit}

/-- `~MpscQueue` begins: what the last `try_pop` returned is of no concern to it. -/
def beginDestroy (s : State cap ι τ) : State cap ι τ := { s with popper := .idle }

/-- The loop of `~MpscQueue`. It ends with the first `try_pop` that fails. -/
def stepDestroy (s : State cap ι τ) (_ : Unit) : Option (State cap ι τ) :=
  match s.popper with
  | .idle => tryPop s s.popper .call
  | .returned (some _) => tryPop s s.popper .call
  | .returned none => none
  | _ => tryPop s s.popper .step

/-- No call is in progress. -/
structure Resting (s : State cap ι τ) : Prop where
  producers : ∀ t, (s.producers t).claim = none
  popper : ¬s.popper.InCall

/-- All that was pushed was popped, in the order of the claims, and every slot is empty. -/
structure Emptied (s : State cap ι τ) : Prop where
  popper : s.popper = .returned none
  pops : s.pops = s.mem.pushes.map Prod.snd
  raw : ∀ i, s.mem.storage i = .raw

/-- What is left of the loop. -/
def destroyWork (s : State cap ι τ) : ℕ :=
  match s.popper with
  | .idle => 8*s.waiting+3
  | .returned (some _) => 8*s.waiting+3
  | .returned none => 0
  | _ => 8*s.waiting+s.popper.due

/-- Where all that was claimed is popped, no slot holds an object. -/
theorem Inv.raw (h : Inv s r) (hpopper : s.popper = .returned none)
    (hpops : s.pops = s.mem.pushes.map Prod.snd) (i : Fin cap.n) : s.mem.storage i = .raw := by
  have hok := h.popper
  rw [hpopper] at hok
  have hs : Settled s r := hok
  have hlength := congrArg List.length hpops
  rw [List.length_map,h.sim.claims,hs.pops] at hlength
  refine h.sim.free i ((r.free_iff i).mpr ?_)
  have hbehind := h.behind i
  rw [hs.released] at hbehind
  omega

structure Destroys (pushes : List (ι × τ)) (s : State cap ι τ) : Prop where
  sound : Sound s
  pushes : s.mem.pushes = pushes
  producers : ∀ t, (s.producers t).claim = none
  emptied : s.popper = .returned none → Emptied s

theorem PopPc.inCall_of {pc : PopPc τ} (hidle : pc ≠ .idle) (hnone : pc ≠ .returned none)
    (hsome : ∀ v, pc ≠ .returned (some v)) : pc.InCall := by
  cases pc with
  | idle => exact absurd rfl hidle
  | returned out =>
    cases out with
    | none => exact absurd rfl hnone
    | some v => exact absurd rfl (hsome v)
  | _ => trivial

theorem stepDestroy_cases (h : stepDestroy s () = some s') :
    (s.popper = .idle ∨ ∃ v, s.popper = .returned (some v)) ∧
        tryPop s s.popper .call = some s' ∨
      s.popper.InCall ∧ tryPop s s.popper .step = some s' := by
  unfold stepDestroy at h
  split at h
  · next hp => exact .inl ⟨.inl hp,h⟩
  · next v hp => exact .inl ⟨.inr ⟨v,hp⟩,h⟩
  · cases h
  · next hidle hsome hnone =>
    exact .inr ⟨PopPc.inCall_of hidle hnone hsome,h⟩

theorem Destroys.step {pushes : List (ι × τ)} (h : Destroys pushes s)
    (hstep : stepDestroy s () = some s') : Destroys pushes s' := by
  obtain ⟨r,hr⟩ := h.sound
  have hproducers (hsame : s'.producers = s.producers) t : (s'.producers t).claim = none := by
    rw [hsame]
    exact h.producers t
  rcases stepDestroy_cases hstep with ⟨-,hcall⟩ | ⟨-,hpop⟩
  · obtain ⟨hpushes,-,hsame,-⟩ := tryPop_frame hcall
    obtain ⟨-,hpopper,-⟩ := tryPop_begin hcall
    refine ⟨tryPop_inv hr hcall,hpushes.trans h.pushes,hproducers hsame,fun hnone => ?_⟩
    rw [hpopper] at hnone
    cases hnone
  · obtain ⟨hpushes,-,hsame,-⟩ := tryPop_frame hpop
    have hsound := tryPop_inv hr hpop
    refine ⟨hsound,hpushes.trans h.pushes,hproducers hsame,fun hnone => ?_⟩
    have hdrained := hr.drained (tryPop_missing hpop hnone) h.producers
    have hpops : s'.pops = s.pops := by
      rcases tryPop_pops hpop with ⟨v,hsome,-⟩ | ⟨-,hpops⟩
      · cases hnone.symm.trans hsome
      · exact hpops
    obtain ⟨r',hr'⟩ := hsound
    rw [← hpops,← hpushes] at hdrained
    exact ⟨hnone,hdrained,hr'.raw hnone hdrained⟩

theorem destroyWork_of_inCall (h : s.popper.InCall) :
    destroyWork s = 8*s.waiting+s.popper.due := by
  unfold destroyWork
  cases hp : s.popper with
  | idle =>
    rw [hp] at h
    exact h.elim
  | returned out =>
    rw [hp] at h
    exact h.elim
  | _ => rfl

theorem destroyWork_step (hsound : Sound s') (hstep : stepDestroy s () = some s') :
    destroyWork s' < destroyWork s := by
  rcases stepDestroy_cases hstep with ⟨hp,hcall⟩ | ⟨hin,hpop⟩
  · obtain ⟨-,hpopper,hwaiting,-⟩ := tryPop_begin hcall
    have hbefore : destroyWork s = 8*s.waiting+3 := by
      unfold destroyWork
      rcases hp with hp | ⟨v,hp⟩ <;> rw [hp]
    rw [hbefore,destroyWork_of_inCall (by rw [hpopper]; trivial),hwaiting,hpopper,PopPc.due]
    omega
  · rw [destroyWork_of_inCall hin]
    obtain ⟨-,-,-,⟨⟨v,hv⟩,hwaiting,hdue⟩ | ⟨hnone,-,hdue⟩ | ⟨hin',hless⟩⟩ := tryPop_due hsound hpop
    · unfold destroyWork
      simp only [hv,hwaiting,hdue]
      omega
    · unfold destroyWork
      simp only [hnone,hdue]
      omega
    · rw [destroyWork_of_inCall hin']
      exact hless

theorem Destroys.enabled {pushes : List (ι × τ)} (h : Destroys pushes s) (hmore : ¬Emptied s) :
    (stepDestroy s ()).isSome = true := by
  obtain ⟨r,hr⟩ := h.sound
  have hpop (hin : s.popper.InCall) := hr.pop_enabled hin
  have hcall (hout : ¬s.popper.InCall) := call_enabled hout
  unfold stepDestroy
  split
  · next hp => exact hcall (by rw [hp]; exact id)
  · next v hp => exact hcall (by rw [hp]; exact id)
  · next hp => exact absurd (h.emptied hp) hmore
  · next hidle hsome hnone =>
    exact hpop (PopPc.inCall_of hidle hnone hsome)

/-- The loop of the destructor, as a measure on its states. -/
def destroyRanking (pushes : List (ι × τ)) :
    Transition.Ranking stepDestroy (fun (_ : State cap ι τ) _ => True)
      (fun s => Emptied s ∧ s.mem.pushes = pushes) where
  inv := Destroys pushes
  work := destroyWork
  keep := fun _ _ _ h _ hstep => h.step hstep
  lower := fun _ _ _ h _ hstep => destroyWork_step (h.step hstep).sound hstep
  enabled := fun _ h hmore =>
    ⟨(),trivial,h.enabled fun hemptied => hmore ⟨hemptied,h.pushes⟩⟩

variable [DecidableEq ι]

/-- Up to `2^64` claims, the destructor of a queue in which no call is in progress ends, and then
every value pushed was popped once, in the order of the claims, and every slot is empty. -/
theorem run_destroy_ends {as : List (Action ι τ)} (hrun : Transition.run step start as = some s)
    (hb : s.mem.pushes.length ≤ 2^64) (hresting : Resting s) :
    Transition.Ends stepDestroy (fun _ _ => True)
      (fun t => Emptied t ∧ t.mem.pushes = s.mem.pushes) (beginDestroy s) := by
  obtain ⟨r,hr⟩ := reachable_sound (Transition.Reachable.run .start hrun) hb
  have hs : Settled s r := by
    have hok := hr.popper
    have hout := hresting.popper
    cases hp : s.popper with
    | idle => rwa [hp] at hok
    | returned out => rwa [hp] at hok
    | _ =>
      rw [hp] at hout
      exact absurd trivial hout
  have hsound : Sound (beginDestroy s) :=
    ⟨r,{ hr with popper := ⟨hs.consumer,hs.released,hs.pops⟩ }⟩
  exact (destroyRanking s.mem.pushes).ends ⟨hsound,rfl,hresting.producers,nofun⟩

/-- Two values are pushed, one of them is popped. -/
def halfPopped : List (Action Bool ℕ) :=
  [.push true (.call 7)] ++ List.replicate 6 (.push true .step) ++
    ([.push false (.call 8)] ++ List.replicate 6 (.push false .step) ++
      (.pop .call :: List.replicate 6 (.pop .step)))

theorem run_destroy_ends_halfPopped : ∃ s : State Capacity.two Bool ℕ,
    Transition.run step start halfPopped = some s ∧ s.pops = [7] ∧
    Transition.Ends stepDestroy (fun _ _ => True)
      (fun t => Emptied t ∧ t.mem.pushes = s.mem.pushes) (beginDestroy s) := by
  obtain ⟨s,hrun,hpops,hb,hproducers,hpopper⟩ : ∃ s : State Capacity.two Bool ℕ,
      Transition.run step start halfPopped = some s ∧ s.pops = [7] ∧ s.mem.pushes.length = 2 ∧
      (∀ t, (s.producers t).claim = none) ∧ s.popper = .returned (some 7) :=
    ⟨_,rfl,rfl,rfl,by decide,rfl⟩
  exact ⟨s,hrun,hpops,run_destroy_ends hrun (by omega) ⟨hproducers,by rw [hpopper]; exact id⟩⟩

end MpscQueue
end Marketlib
