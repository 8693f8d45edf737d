import Marketlib.ThreadExit

/-! What `Drain::stop` flushes: the records that were in the threads' queues when it was called.
A thread registers once and does not ask whether it was heard. Its records come out if the queue
of registrations has room for it, and no other thread stands in its way in that queue when the
drain looks there for the last time. -/

namespace Marketlib
namespace LogDrain

variable {ι τ : Type}

/-- A registration is not refused, and when the drain finds no more of them after
`Drain::stop` no thread is behind its claim of a slot. -/
def Registers (s : State ι τ) : Action ι τ → Prop
  | .access t _ => s.registerQueue.refusing t = false
  | .drain => s.drain.final = true → s.registerQueue.missing = true →
      ∀ t, (s.registerQueue.producers t).claim = none
  | _ => True

instance decidableRegisters [Fintype ι] (s : State ι τ) : ∀ a, Decidable (Registers s a)
  | .access t _ => inferInstanceAs (Decidable (s.registerQueue.refusing t = false))
  | .drain =>
    haveI (t : ι) : Decidable ((s.registerQueue.producers t).claim = none) :=
      decidable_of_iff _ Option.isNone_iff_eq_none
    inferInstanceAs (Decidable (s.drain.final = true → s.registerQueue.missing = true →
      ∀ t, (s.registerQueue.producers t).claim = none))
  | .write .. => isTrue trivial
  | .exit _ => isTrue trivial
  | .stop => isTrue trivial

variable [DecidableEq ι] {s s' : State ι τ} {t : ι}

/-! ### Steps that register -/

/-- The step with which a thread gets to be registered ends its `try_push`. -/
theorem access_registers {spurious : Bool} (h : access s t spurious (s.writers t) = some s')
    {u : ι} (hold : s.tRegistered u = false) (hnew : s'.tRegistered u = true) :
    u = t ∧ ∃ a ok, PushAction.value a = none ∧
      MpscQueue.step s.registerQueue (.push t a) = some s'.registerQueue ∧
      s'.registerQueue.producers t = .returned ok := by
  unfold access at h
  split at h
  · obtain ⟨q,hq,hs⟩ := Option.bind_eq_some_iff.mp h
    split at hs
    · next ok hret =>
      obtain ⟨b,-,hs⟩ := Option.bind_eq_some_iff.mp hs
      cases hs
      have hut : u = t := by
        by_contra hne
        exact absurd (hold.symm.trans ((Function.update_of_ne hne ..).symm.trans hnew)) nofun
      exact ⟨hut,_,ok,by split <;> rfl,hq,hret⟩
    · cases hs
      exact absurd (hold.symm.trans hnew) nofun
  · obtain ⟨b,-,hs⟩ := Option.bind_eq_some_iff.mp h
    split at hs <;> cases hs <;> exact absurd (hold.symm.trans hnew) nofun
  · obtain ⟨q,-,hs⟩ := Option.bind_eq_some_iff.mp h
    split at hs <;> cases hs <;> exact absurd (hold.symm.trans hnew) nofun
  · obtain ⟨b,-,hs⟩ := Option.bind_eq_some_iff.mp h
    split at hs <;> cases hs <;> exact absurd (hold.symm.trans hnew) nofun
  · cases h

/-- It goes on to the next buffer when it has emptied one. -/
theorem drainLoop_empties {final : Bool} {buf : ι} {rest : List ι} (hlogged : Logged s)
    (h : drainLoop s s.drain = some s') (hpc : s.drain = .popping final buf rest)
    (hpc' : s'.drain = .visit final rest) : (s'.tBuf buf).pops = (s'.tBuf buf).pushes := by
  rw [hpc] at h
  simp only [drainLoop] at h
  split_ifs at h with hgone
  · cases h
    cases hpc'
  · have hinv := ((hlogged.served buf).buffer (by simpa using hgone)).1
    obtain ⟨b,hb,hs⟩ := Option.bind_eq_some_iff.mp h
    split at hs
    · cases hs
      cases hpc'
    · next hnone =>
      cases hs
      simpa only [Function.update_self] using SpscQueue.step_pop_none hinv hb hnone
    · cases hs
      cases hpc.symm.trans hpc'

/-- Each registration that the drain pops is a buffer more that it knows; it goes on to the
buffers when it finds no registration. -/
theorem drainLoop_popped (h : drainLoop s s.drain = some s')
    (hpopped : s.buffers = s.registerQueue.pops) : s'.buffers = s'.registerQueue.pops ∧
      (s.drain.collecting = true → s'.drain.collecting = false →
        s.registerQueue.missing = true) := by
  rcases drainLoop_cases h with ⟨hpc,rfl⟩ | ⟨_,q,-,hq,rfl⟩ |
    ⟨_,q,hpc,hq,⟨buf,hret,rfl⟩ | ⟨hret,rfl⟩ | ⟨hret,rfl⟩⟩ | ⟨_,hpc,rfl⟩ | ⟨_,_,_,hpc,-,rfl⟩ |
    ⟨_,_,_,_,hpc,-,-,rfl⟩ | ⟨_,_,_,_,hpc,-,-,⟨_,-,rfl⟩ | ⟨-,rfl⟩ | ⟨-,rfl⟩⟩ | ⟨_,_,_,_,hpc,rfl⟩ |
    ⟨_,q,hpc,hq,rfl⟩ | ⟨_,q,hpc,hq,⟨_,-,rfl⟩ | ⟨-,rfl⟩ | ⟨-,rfl⟩⟩ | ⟨_,_,hpc,rfl⟩
  · exact ⟨hpopped,by rw [hpc]; nofun⟩
  · cases MpscQueue.tryPop_call hq
    exact ⟨hpopped,fun _ => nofun⟩
  · rcases MpscQueue.tryPop_pops hq with ⟨v,hv,hpops⟩ | ⟨hv,-⟩
    · cases hret.symm.trans hv
      exact ⟨(congrArg (· ++ [buf]) hpopped).trans hpops.symm,fun _ => nofun⟩
    · exact absurd hret (hv buf)
  · rcases MpscQueue.tryPop_pops hq with ⟨v,hv,-⟩ | ⟨-,hpops⟩
    · cases hret.symm.trans hv
    · exact ⟨hpopped.trans hpops.symm,fun _ _ => MpscQueue.tryPop_missing hq hret⟩
  · rcases MpscQueue.tryPop_pops hq with ⟨v,hv,-⟩ | ⟨-,hpops⟩
    · exact absurd hv (hret _)
    · refine ⟨hpopped.trans hpops.symm,fun hold hnew => ?_⟩
      exact absurd (hold.symm.trans hnew) nofun
  · exact ⟨hpopped,by rw [hpc]; nofun⟩
  · exact ⟨hpopped,by rcases hpc with hpc | hpc <;> rw [hpc] <;> nofun⟩
  all_goals exact ⟨hpopped,by rw [hpc]; nofun⟩

/-- What is in a thread's queue stays accepted. -/
theorem step_grows {a : Action ι τ} (hstep : step s a = some s') (t : ι) :
    (s.tBuf t).pushes <+: (s'.tBuf t).pushes := by
  have hupdate {u : ι} {b : SpscQueue.State kCapacity (Entry ι τ)}
      (hb : (s.tBuf u).pushes <+: b.pushes) :
      (s.tBuf t).pushes <+: (Function.update s.tBuf u b t).pushes := by
    rcases eq_or_ne t u with rfl | hne
    · rwa [Function.update_self]
    · rw [Function.update_of_ne hne]
  have hcall {u : ι} {entry : Entry ι τ} {b : SpscQueue.State kCapacity (Entry ι τ)}
      (hb : SpscQueue.step (s.tBuf u) (.callPush entry) = some b) :
      (s.tBuf u).pushes <+: b.pushes := by
    obtain ⟨-,rfl⟩ := SpscQueue.callPush_cases hb
    exact List.prefix_rfl
  have hpush {u : ι} {b : SpscQueue.State kCapacity (Entry ι τ)}
      (hb : SpscQueue.step (s.tBuf u) .push = some b) : (s.tBuf u).pushes <+: b.pushes := by
    obtain ⟨-,-,v,-,⟨hsame,-⟩ | ⟨hgrow,-⟩ | ⟨hsame,-⟩⟩ := SpscQueue.step_push_value hb
    · rw [hsame]
    · rw [hgrow]
      exact List.prefix_append ..
    · rw [hsame]
  cases a with
  | write u args record =>
    obtain ⟨-,entry,-,⟨b,-,-,hb,rfl⟩ | ⟨q,-,-,-,rfl⟩ | ⟨q,-,-,rfl⟩⟩ := write_cases hstep
    · exact hupdate (hcall hb)
    · exact List.prefix_rfl
    · exact List.prefix_rfl
  | access u spurious =>
    rcases access_cases hstep with ⟨entry,a,q,-,-,-,⟨b,hb,rfl⟩ | rfl⟩ |
      ⟨entry,b,-,hb,⟨ok,-,rfl⟩ | ⟨-,rfl⟩⟩ | ⟨entry,a,q,-,-,-,rfl | rfl⟩ | ⟨b,pc,-,hpushes,-,rfl⟩
    · exact hupdate (hcall hb)
    · exact List.prefix_rfl
    · exact hupdate (hpush hb)
    · exact hupdate (hpush hb)
    · exact List.prefix_rfl
    · exact List.prefix_rfl
    · exact hupdate (by rw [hpushes])
  | exit u =>
    obtain ⟨-,pc,b,hpushes,-,rfl⟩ := exit_cases hstep
    exact hupdate (by rw [hpushes])
  | drain =>
    obtain ⟨-,-,-,-,-,-,hpushes⟩ := drainLoop_frame hstep
    rw [hpushes]
  | stop =>
    rcases stop_cases hstep with ⟨-,rfl⟩ | ⟨-,-,rfl⟩
    · exact List.prefix_rfl
    · exact List.prefix_rfl

/-! ### Buffers that the drain knows -/

/-- What becomes of the records `accepted`, which are in the threads' queues: in the last pass
the drain has a buffer still ahead, or its records are popped. -/
structure Flushing (accepted : ι → List (Entry ι τ)) (s : State ι τ) : Prop where
  grown : ∀ t, accepted t <+: (s.tBuf t).pushes
  flushed : s.drain.final = true → s.drain.collecting = false → ∀ t ∈ s.buffers,
    t ∈ s.drain.visiting ∨ accepted t <+: lines t .fast s.taken

variable {accepted : ι → List (Entry ι τ)}

/-- A step that is not the drain's. -/
theorem Flushing.frame (h : Flushing accepted s) {a : Action ι τ} (hstep : step s a = some s')
    (hdrain : s'.drain = s.drain) (hbuffers : s'.buffers = s.buffers)
    (hemitted : s'.emitted = s.emitted) : Flushing accepted s' where
  grown := fun t => (h.grown t).trans (step_grows hstep t)
  flushed := by
    rw [State.taken,hemitted,hdrain,hbuffers]
    exact h.flushed

theorem drainLoop_flushing (hlogged : Logged s) (h : Flushing accepted s)
    (hstep : drainLoop s s.drain = some s') : Flushing accepted s' := by
  have hgrown (t : ι) : accepted t <+: (s'.tBuf t).pushes :=
    (h.grown t).trans (step_grows (a := .drain) hstep t)
  have hlines (t : ι) : lines t .fast s.taken <+: lines t .fast s'.taken := by
    have htaken : s.taken <+: s'.taken := by
      obtain ⟨-,-,-,⟨-,-,-,-,-,-,-,⟨-,heq⟩ | ⟨v,-,heq⟩⟩ | ⟨-,⟨-,heq⟩ | ⟨v,-,heq⟩⟩⟩ :=
        drainLoop_taken hstep
      · rw [heq]
      · rw [heq]
        exact List.prefix_append ..
      · rw [heq]
      · rw [heq]
        exact List.prefix_append ..
    exact htaken.filter _
  have hkept (hbuffers : s'.buffers = s.buffers) (hvisiting : s'.drain.visiting = s.drain.visiting)
      (hfinal : s.drain.final = true) (hcollecting : s.drain.collecting = false) :
      ∀ t ∈ s'.buffers, t ∈ s'.drain.visiting ∨ accepted t <+: lines t .fast s'.taken := by
    rw [hbuffers,hvisiting]
    exact fun t ht => (h.flushed hfinal hcollecting t ht).imp_right (·.trans (hlines t))
  rcases drainLoop_visits hstep with ⟨hbuffers,hvisiting,hfinal,hcollecting,-⟩ |
    ⟨buf,-,-,hpc,-⟩ | ⟨-,hpc,-⟩ | ⟨final,buf,-,hpc,-,-⟩ | ⟨final,-,hpc,hbuffers⟩ |
    ⟨final,buf,rest,hold,halive,hpc,hbuffers⟩ | ⟨final,hold,hpc,hbuffers⟩ <;> refine ⟨hgrown,?_⟩
  · rw [hfinal,hcollecting]
    exact hkept hbuffers hvisiting
  · rw [hpc]
    nofun
  · rw [hpc]
    nofun
  · rw [hpc]
    nofun
  · rw [hpc,hbuffers]
    exact fun _ _ t ht => .inl ht
  · intro hfinal _ t ht
    rw [hpc] at hfinal
    rw [hbuffers] at ht
    have hknown := h.flushed (by rw [hold]; exact hfinal) (by rw [hold]; rfl) t ht
    rw [hold] at hknown
    rw [hpc]
    rcases hknown with hknown | hknown
    · rcases List.mem_cons.mp hknown with rfl | hrest
      · have hwriters := (drainLoop_frame hstep).1
        have hpopped := (((drainLoop_logged hlogged hstep).served t).buffer
          (by rw [hwriters]; exact halive)).2
        rw [hpopped,drainLoop_empties hlogged hstep hold hpc]
        exact .inr (hgrown t)
      · exact .inl hrest
    · exact .inr (hknown.trans (hlines t))
  · intro hfinal _
    refine hkept hbuffers ?_ ?_ (by rw [hold]; rfl)
    · rw [hold,hpc]
      cases final <;> rfl
    · rw [hold]
      rw [hpc] at hfinal
      cases final
      · cases hfinal
      · rfl

theorem step_flushing {a : Action ι τ} (hlogged : Logged s) (htracked : Tracked s)
    (h : Flushing accepted s) (hstep : step s a = some s') : Flushing accepted s' := by
  cases a with
  | write t args record =>
    obtain ⟨haside,-⟩ := write_aside hstep
    exact h.frame (a := .write t args record) hstep haside.drain haside.buffers haside.emitted
  | access t spurious =>
    obtain ⟨haside,-⟩ := access_aside htracked hstep
    exact h.frame (a := .access t spurious) hstep haside.drain haside.buffers haside.emitted
  | exit t =>
    obtain ⟨-,haside,-⟩ := exit_aside hstep
    exact h.frame (a := .exit t) hstep haside.drain haside.buffers haside.emitted
  | drain => exact drainLoop_flushing hlogged h hstep
  | stop =>
    rcases stop_cases hstep with ⟨-,rfl⟩ | ⟨-,-,rfl⟩
    · exact h.frame (a := .stop) hstep rfl rfl rfl
    · exact h.frame (a := .stop) hstep rfl rfl rfl

/-! ### Registrations that are heard -/

structure Heard (s : State ι τ) : Prop where
  popped : s.buffers = s.registerQueue.pops
  once : ∀ t, (s.registerQueue.calls t).length ≤ 1
  claimed : ∀ t, s.tRegistered t = true → t ∈ s.claims

omit [DecidableEq ι] in
theorem start_heard : Heard (start : State ι τ) where
  popped := rfl
  once := fun _ => Nat.zero_le _
  claimed := nofun

omit [DecidableEq ι] in
/-- A step that registers nothing. -/
theorem Heard.frame (h : Heard s) (hbuffers : s'.buffers = s.buffers)
    (hpops : s'.registerQueue.pops = s.registerQueue.pops)
    (hcalls : s'.registerQueue.calls = s.registerQueue.calls)
    (hregistered : s'.tRegistered = s.tRegistered) (hclaims : s.claims ⊆ s'.claims) :
    Heard s' where
  popped := by
    rw [hbuffers,hpops]
    exact h.popped
  once := by
    rw [hcalls]
    exact h.once
  claimed := by
    rw [hregistered]
    exact fun t ht => hclaims (h.claimed t ht)

theorem write_heard {args : ArgTypes} {record : τ} (htracked : Tracked s) (h : Heard s)
    (hstep : write s t args record = some s') : Heard s' := by
  have hclaims := (write_aside hstep).1.claims
  obtain ⟨hidle,entry,-,⟨b,-,-,-,rfl⟩ | ⟨q,-,hreg,hq,rfl⟩ | ⟨q,-,-,rfl⟩⟩ := write_cases hstep
  · exact h.frame rfl rfl rfl rfl hclaims
  · have hnone := ((htracked.enrolled t).never hreg).2.2 fun entry hpc => by
      cases hidle.symm.trans hpc
    have hcalls : q.calls =
        Function.update s.registerQueue.calls t (s.registerQueue.calls t ++ [t]) := by
      rw [MpscQueue.step_call hq]
    refine ⟨h.popped.trans (by rw [MpscQueue.step_call hq]),fun u => ?_,
      fun u hu => hclaims (h.claimed u hu)⟩
    change (q.calls u).length ≤ 1
    rw [hcalls]
    rcases eq_or_ne u t with rfl | hne
    · rw [Function.update_self,hnone]
      rfl
    · rw [Function.update_of_ne hne]
      exact h.once u
  · exact h.frame rfl rfl rfl rfl hclaims

theorem access_heard {spurious : Bool} (htracked : Tracked s) (h : Heard s)
    (hheard : Registers s (.access t spurious))
    (hstep : access s t spurious (s.writers t) = some s') : Heard s' := by
  have hclaims := (access_aside htracked hstep).1.claims
  have hreach := (step_moves (a := .access t spurious) hstep).1.reachable htracked.registerQueue
  have hsame : s'.buffers = s.buffers ∧ s'.registerQueue.pops = s.registerQueue.pops ∧
      s'.registerQueue.calls = s.registerQueue.calls := by
    rcases access_cases hstep with ⟨entry,a,q,-,ha,hq,⟨b,-,rfl⟩ | rfl⟩ |
      ⟨entry,b,-,-,⟨ok,-,rfl⟩ | ⟨-,rfl⟩⟩ | ⟨entry,a,q,-,-,-,rfl | rfl⟩ | ⟨b,pc,-,-,-,rfl⟩
    · obtain ⟨hcalls,hpops,-⟩ := MpscQueue.step_inCall ha hq
      exact ⟨rfl,hpops,hcalls⟩
    · obtain ⟨hcalls,hpops,-⟩ := MpscQueue.step_inCall ha hq
      exact ⟨rfl,hpops,hcalls⟩
    all_goals exact ⟨rfl,rfl,rfl⟩
  obtain ⟨hbuffers,hpops,hcalls⟩ := hsame
  refine ⟨by rw [hbuffers,hpops,h.popped],by rw [hcalls]; exact h.once,fun u hu => ?_⟩
  cases hold : s.tRegistered u with
  | true => exact hclaims (h.claimed u hold)
  | false =>
    obtain ⟨rfl,a,ok,ha,hq,hret⟩ := access_registers hstep hold hu
    obtain ⟨-,-,-,-,x,-,⟨-,hnow⟩ | ⟨-,-,hnow⟩ | ⟨-,-,hnow⟩ | ⟨hpushes,⟨pos,hclaim⟩,-⟩⟩ :=
      MpscQueue.step_inCall ha hq
    · rw [hret] at hnow
      cases hnow
    · rw [hret] at hnow
      cases hnow
    · exact absurd (hheard.symm.trans (MpscQueue.step_refusing hq hnow)) nofun
    · have hmem := MpscQueue.reachable_claimed htracked.registerQueue u x pos hclaim
      have hx := (htracked.enrolled u).calls x
        (MpscQueue.calls_of_mem_pushes htracked.registerQueue hmem)
      rw [State.claims,hpushes]
      exact List.mem_map.mpr ⟨_,hmem,hx⟩

theorem step_heard {a : Action ι τ} (htracked : Tracked s) (h : Heard s) (hheard : Registers s a)
    (hstep : step s a = some s') : Heard s' := by
  cases a with
  | write t args record => exact write_heard htracked h hstep
  | access t spurious => exact access_heard htracked h hheard hstep
  | exit t =>
    obtain ⟨-,pc,b,-,-,rfl⟩ := exit_cases hstep
    exact h.frame rfl rfl rfl rfl (List.Subset.refl _)
  | drain =>
    obtain ⟨-,hregistered,-,-,hcalls,hclaims,-⟩ := drainLoop_frame hstep
    refine ⟨(drainLoop_popped hstep h.popped).1,by rw [hcalls]; exact h.once,?_⟩
    rw [hregistered,hclaims]
    exact h.claimed
  | stop =>
    rcases stop_cases hstep with ⟨-,rfl⟩ | ⟨-,-,rfl⟩
    · exact ⟨h.popped,h.once,h.claimed⟩
    · exact ⟨h.popped,h.once,h.claimed⟩

/-- Threads that have buffers at different addresses do not claim more than `2^64` slots. -/
theorem Heard.length_le (h : Heard s) (htracked : Tracked s) (address : ι ↪ UInt64) :
    s.registerQueue.mem.pushes.length ≤ 2^64 := by
  have hnodup : (s.registerQueue.mem.pushes.map Prod.fst).Nodup := by
    refine List.nodup_iff_count_le_one.mpr fun t => ?_
    have hclaimed := (MpscQueue.claimedBy_sublist htracked.registerQueue t).length_le
    rw [MpscQueue.claimedBy,List.length_map] at hclaimed
    rw [List.count,List.countP_map,List.countP_eq_length_filter]
    exact hclaimed.trans (h.once t)
  have hwords := (hnodup.map address.injective).map
    (f := fun w : UInt64 => w.toFin) fun _ _ => UInt64.toFin_inj.mp
  simpa using hwords.length_le_card

/-- When the drain finds no more registrations and no thread is behind a claim, it knows every
thread that has put a record in its queue. -/
theorem Heard.knows (h : Heard s) (htracked : Tracked s) (address : ι ↪ UInt64)
    (hmissing : s.registerQueue.missing = true)
    (hidle : ∀ t, (s.registerQueue.producers t).claim = none) (ht : (s.tBuf t).pushes ≠ []) :
    t ∈ s.buffers := by
  obtain ⟨r,hr⟩ := MpscQueue.reachable_sound htracked.registerQueue (h.length_le htracked address)
  have hregistered : s.tRegistered t = true := by
    by_contra hreg
    exact ht ((htracked.enrolled t).never (by simpa using hreg)).2.1
  rw [h.popped,hr.drained hmissing hidle]
  exact h.claimed t hregistered

/-- In the last pass the drain knows every thread of the records `accepted`. -/
def Known (accepted : ι → List (Entry ι τ)) (s : State ι τ) : Prop :=
  s.drain.final = true → s.drain.collecting = false → ∀ t, accepted t ≠ [] → t ∈ s.buffers

theorem drainLoop_known (address : ι ↪ UInt64) (htracked : Tracked s) (hheard : Heard s)
    (hgrown : ∀ t, accepted t <+: (s.tBuf t).pushes) (hregisters : Registers s .drain)
    (h : Known accepted s) (hstep : drainLoop s s.drain = some s') : Known accepted s' := by
  obtain ⟨-,hlooks⟩ := drainLoop_popped hstep hheard.popped
  rcases drainLoop_visits hstep with ⟨hbuffers,-,hfinal,hcollecting,-⟩ |
    ⟨buf,-,-,hpc,-⟩ | ⟨-,hpc,-⟩ | ⟨final,buf,-,hpc,-,-⟩ | ⟨final,hold,hpc,hbuffers⟩ |
    ⟨final,buf,rest,hold,-,hpc,hbuffers⟩ | ⟨final,hold,hpc,hbuffers⟩
  · rw [Known,hfinal,hcollecting,hbuffers]
    exact h
  · rw [Known,hpc]
    nofun
  · rw [Known,hpc]
    nofun
  · rw [Known,hpc]
    nofun
  · rw [Known,hpc,hbuffers]
    intro hfinal _ t ht
    have hmissing := hlooks (by rw [hold]; rfl) (by rw [hpc]; rfl)
    refine hheard.knows htracked address hmissing
      (hregisters (by rw [hold]; exact hfinal) hmissing) fun hnil => ht ?_
    have hprefix := hgrown t
    rw [hnil] at hprefix
    exact List.prefix_nil.mp hprefix
  · rw [Known,hpc,hbuffers]
    exact fun hfinal _ => h (by rw [hold]; exact hfinal) (by rw [hold]; rfl)
  · rw [Known,hpc,hbuffers]
    intro hfinal _
    refine h ?_ (by rw [hold]; rfl)
    rw [hold]
    cases final
    · cases hfinal
    · rfl

theorem step_known (address : ι ↪ UInt64) {a : Action ι τ} (htracked : Tracked s)
    (hheard : Heard s) (hgrown : ∀ t, accepted t <+: (s.tBuf t).pushes)
    (hregisters : Registers s a) (h : Known accepted s) (hstep : step s a = some s') :
    Known accepted s' := by
  have hframe {u : ι} (haside : Aside u s s') : Known accepted s' := by
    rw [Known,haside.drain,haside.buffers]
    exact h
  cases a with
  | write t args record => exact hframe (write_aside hstep).1
  | access t spurious => exact hframe (access_aside htracked hstep).1
  | exit t => exact hframe (exit_aside hstep).2.1
  | drain => exact drainLoop_known address htracked hheard hgrown hregisters h hstep
  | stop =>
    rcases stop_cases hstep with ⟨-,rfl⟩ | ⟨-,-,rfl⟩
    · exact h
    · exact h

/-! ### Runs -/

/-- `Drain::stop` returns behind the drain. -/
theorem step_stopper {a : Action ι τ} (h : s.stopper = .returned → s.drain = .returned)
    (hstep : step s a = some s') (hreturned : s'.stopper = .returned) : s'.drain = .returned := by
  cases a with
  | write t args record =>
    obtain ⟨-,entry,-,⟨b,-,-,-,rfl⟩ | ⟨q,-,-,-,rfl⟩ | ⟨q,-,-,rfl⟩⟩ := write_cases hstep
    · exact h hreturned
    · exact h hreturned
    · exact h hreturned
  | access t spurious =>
    rcases access_cases hstep with ⟨entry,a,q,-,-,-,⟨b,-,rfl⟩ | rfl⟩ |
      ⟨entry,b,-,-,⟨ok,-,rfl⟩ | ⟨-,rfl⟩⟩ | ⟨entry,a,q,-,-,-,rfl | rfl⟩ | ⟨b,pc,-,-,-,rfl⟩
    all_goals exact h hreturned
  | exit t =>
    obtain ⟨-,pc,b,-,-,rfl⟩ := exit_cases hstep
    exact h hreturned
  | drain =>
    have hold : s.stopper = .returned := by
      rw [← hreturned]
      rcases drainLoop_cases hstep with ⟨-,rfl⟩ | ⟨_,q,-,hq,rfl⟩ |
        ⟨_,q,-,hq,⟨buf,-,rfl⟩ | ⟨-,rfl⟩ | ⟨-,rfl⟩⟩ | ⟨_,-,rfl⟩ | ⟨_,_,_,-,-,rfl⟩ |
        ⟨_,_,_,_,-,-,-,rfl⟩ | ⟨_,_,_,_,-,-,-,⟨_,-,rfl⟩ | ⟨-,rfl⟩ | ⟨-,rfl⟩⟩ | ⟨_,_,_,_,-,rfl⟩ |
        ⟨_,q,-,hq,rfl⟩ | ⟨_,q,-,hq,⟨_,-,rfl⟩ | ⟨-,rfl⟩ | ⟨-,rfl⟩⟩ | ⟨_,_,-,rfl⟩
      all_goals rfl
    have hnone : drainLoop s s.drain = none := by rw [h hold]; rfl
    exact absurd (hnone.symm.trans hstep) nofun
  | stop =>
    rcases stop_cases hstep with ⟨-,rfl⟩ | ⟨-,hdrain,rfl⟩
    · cases hreturned
    · exact hdrain

theorem reachable_stopper (h : Transition.Reachable step (start : State ι τ) s) :
    s.stopper = .returned → s.drain = .returned :=
  h.invariant (P := fun s => s.stopper = .returned → s.drain = .returned) (fun h => by cases h)
    fun _ _ _ hs _ hstep => step_stopper hs hstep

/-- A line of the fast path that is emitted is emitted once. -/
theorem Logged.emittedOnce (h : Logged s) {entry : Entry ι τ} (hmem : entry ∈ s.emitted)
    (hpath : entry.path = .fast) : EmittedOnce s entry := by
  obtain ⟨i,hi⟩ := List.mem_iff_getElem?.mp hmem
  refine ⟨i,hi,fun j hj => ?_⟩
  have hlt {k l : ℕ} (hk : s.emitted[k]? = some entry) (hl : s.emitted[l]? = some entry)
      (hkl : k < l) : False := by
    obtain ⟨hk',hk⟩ := List.getElem?_eq_some_iff.mp hk
    obtain ⟨hl',hl⟩ := List.getElem?_eq_some_iff.mp hl
    have hless := List.pairwise_iff_getElem.mp h.fast_inOrder k l hk' hl' hkl
    rw [hk,hl] at hless
    exact lt_irrefl _ (hless hpath hpath rfl)
  exact le_antisymm (le_of_not_gt (hlt hi hj)) (le_of_not_gt (hlt hj hi))

/-- Once `drain_loop` has returned, the records of the buffers that it knows are emitted. -/
theorem Flushing.emitted (h : Flushing accepted s) (hdrain : s.drain = .returned)
    (ht : t ∈ s.buffers) {entry : Entry ι τ} (hmem : entry ∈ accepted t) :
    entry ∈ s.emitted ∧ entry.path = .fast := by
  rcases h.flushed (by rw [hdrain]; rfl) (by rw [hdrain]; rfl) t ht with hvisit | hlines
  · rw [hdrain] at hvisit
    cases hvisit
  · obtain ⟨htaken,-,hpath⟩ := mem_lines.mp (hlines.subset hmem)
    rw [State.taken,hdrain] at htaken
    exact ⟨by simpa [DrainPc.hand] using htaken,hpath⟩

/-- Before the last pass there is nothing to show yet. -/
theorem Flushing.init (hlooping : s.drain.final = false) :
    Flushing (fun t => (s.tBuf t).pushes) s where
  grown := fun _ => List.prefix_rfl
  flushed := fun hfinal => absurd (hlooping.symm.trans hfinal) nofun

theorem run_flushing {as : List (Action ι τ)} (hreach : Transition.Reachable step start s)
    (h : Flushing accepted s) (hrun : Transition.run step s as = some s') :
    Flushing accepted s' := by
  obtain ⟨hlogged,htracked,-⟩ := reachable_tracked hreach
  refine ((Transition.Reachable.run .start hrun).invariant
    (P := fun s => Logged s ∧ Tracked s ∧ Flushing accepted s) ⟨hlogged,htracked,h⟩ ?_).2.2
  rintro s a s' ⟨hlogged,htracked,h⟩ - hstep
  exact ⟨step_logged hlogged hstep,step_tracked hlogged htracked hstep,
    step_flushing hlogged htracked h hstep⟩

/-- A run that registers every thread ends with a drain that knows them. -/
theorem run_known (address : ι ↪ UInt64) {as bs : List (Action ι τ)}
    (hbefore : Transition.run step start as = some s) (hlooping : s.drain.final = false)
    (hafter : Transition.run step s bs = some s')
    (hadmits : Transition.Admits step Registers start (as ++ bs)) :
    Known (fun t => (s.tBuf t).pushes) s' := by
  obtain ⟨hadmits,hrest⟩ := Transition.admits_append.mp hadmits
  have hheard : Logged s ∧ Tracked s ∧ Heard s := by
    refine (Transition.ReachableBy.admits .start hadmits hbefore).invariant
      (P := fun s => Logged s ∧ Tracked s ∧ Heard s) ⟨start_logged,start_tracked,start_heard⟩ ?_
    rintro s a s' ⟨hlogged,htracked,hheard⟩ hregisters hstep
    exact ⟨step_logged hlogged hstep,step_tracked hlogged htracked hstep,
      step_heard htracked hheard hregisters hstep⟩
  obtain ⟨hlogged,htracked,hheard⟩ := hheard
  refine ((Transition.ReachableBy.admits .start (hrest s hbefore) hafter).invariant
    (P := fun s' => Logged s' ∧ Tracked s' ∧ Heard s' ∧
      Flushing (fun t => (s.tBuf t).pushes) s' ∧ Known (fun t => (s.tBuf t).pushes) s')
    ⟨hlogged,htracked,hheard,.init hlooping,fun h => absurd (hlooping.symm.trans h) nofun⟩
    ?_).2.2.2.2
  rintro s a s' ⟨hlogged,htracked,hheard,hflushing,hknown⟩ hregisters hstep
  exact ⟨step_logged hlogged hstep,step_tracked hlogged htracked hstep,
    step_heard htracked hheard hregisters hstep,step_flushing hlogged htracked hflushing hstep,
    step_known address htracked hheard hflushing.grown hregisters hknown hstep⟩

/-- What was in the threads' queues while the drain was running is emitted once by the time that
`Drain::stop` has returned, in a run in which no registration is lost; and in any run just of the
threads whose buffers the drain was told of. -/
theorem run_flushes (address : ι ↪ UInt64) {as bs : List (Action ι τ)}
    (hbefore : Transition.run step start as = some s) (hrunning : s.gRunning = true)
    (hafter : Transition.run step s bs = some s') (hreturned : s'.stopper = .returned) :
    (Transition.Admits step Registers start (as ++ bs) →
      ∀ t, ∀ entry ∈ (s.tBuf t).pushes, EmittedOnce s' entry) ∧
    ((∀ t, ∀ entry ∈ (s.tBuf t).pushes, EmittedOnce s' entry) ↔
      ∀ t, (s.tBuf t).pushes ≠ [] → t ∈ s'.buffers) := by
  have hreach : Transition.Reachable step start s := Transition.Reachable.run .start hbefore
  obtain ⟨-,htracked,-⟩ := reachable_tracked hreach
  obtain ⟨hlogged',-,hmissed'⟩ := reachable_tracked (hreach.run hafter)
  have hdrain := reachable_stopper (hreach.run hafter) hreturned
  have hlooping : s.drain.final = false := by
    by_contra hfinal
    exact absurd (hrunning.symm.trans (htracked.stopped (by simpa using hfinal))) nofun
  have hemitted : (∀ t, (s.tBuf t).pushes ≠ [] → t ∈ s'.buffers) →
      ∀ t, ∀ entry ∈ (s.tBuf t).pushes, EmittedOnce s' entry := by
    intro hknown t entry hentry
    have hflushing := (run_flushing hreach (.init hlooping) hafter).emitted hdrain
      (hknown t (List.ne_nil_of_mem hentry)) hentry
    exact hlogged'.emittedOnce hflushing.1 hflushing.2
  refine ⟨fun hadmits => hemitted ?_,fun h t hne => ?_,hemitted⟩
  · exact run_known address hbefore hlooping hafter hadmits
      (by rw [hdrain]; rfl) (by rw [hdrain]; rfl)
  · obtain ⟨entry,hentry⟩ := List.exists_mem_of_ne_nil _ hne
    obtain ⟨i,hi,-⟩ := h t entry hentry
    obtain ⟨hlogged,-⟩ := reachable_tracked hreach
    obtain ⟨-,hthread,hpath⟩ := (hlogged.served t).mem_pushes hentry
    by_contra hnot
    have hline : entry ∈ lines t .fast s'.taken :=
      mem_lines.mpr ⟨List.mem_append_left _ (List.mem_of_getElem? hi),hthread,hpath⟩
    rw [hmissed'.unknown t hnot] at hline
    cases hline

/-- A thread writes a line. -/
def logged : List (Action Bool ℕ) := .write true anInt 8 :: List.replicate 11 (.access true false)

/-- The drain is stopped, and makes its last pass of `n` steps. -/
def lastPass (n : ℕ) : List (Action Bool ℕ) := .stop :: (List.replicate n .drain ++ [.stop])

theorem run_flushes_logged : ∃ s s' : State Bool ℕ, Transition.run step start logged = some s ∧
    (s.tBuf true).pushes = [⟨true,0,.fast,8⟩] ∧
    Transition.run step s (lastPass 25) = some s' ∧ s'.stopper = .returned ∧
    s'.emitted = [⟨true,0,.fast,8⟩] ∧ EmittedOnce s' ⟨true,0,.fast,8⟩ := by
  obtain ⟨s,s',hbefore,hrunning,hpushes,hafter,hreturned,hemitted⟩ : ∃ s s' : State Bool ℕ,
      Transition.run step start logged = some s ∧ s.gRunning = true ∧
      (s.tBuf true).pushes = [⟨true,0,.fast,8⟩] ∧
      Transition.run step s (lastPass 25) = some s' ∧ s'.stopper = .returned ∧
      s'.emitted = [⟨true,0,.fast,8⟩] := ⟨_,_,rfl,rfl,rfl,rfl,rfl,rfl⟩
  refine ⟨s,s',hbefore,hpushes,hafter,hreturned,hemitted,?_⟩
  refine (run_flushes ⟨fun t => if t then 1 else 0,by decide⟩ hbefore hrunning hafter
    hreturned).1 (by decide +kernel) true _ ?_
  rw [hpushes]
  exact List.mem_singleton_self _

/-- A thread has claimed a slot for its registration when another thread writes a line. -/
def stalled : List (Action Bool ℕ) :=
  .write false anInt 7 :: (List.replicate 3 (.access false false) ++
    .write true anInt 8 :: List.replicate 11 (.access true false))

/-- Both threads live on; the line is lost. -/
theorem stalled_registration_loses : ∃ s s' : State Bool ℕ,
    Transition.run step start stalled = some s ∧ s.gRunning = true ∧
    (s.tBuf true).pushes = [⟨true,1,.fast,8⟩] ∧
    Transition.run step s (lastPass 8) = some s' ∧ s'.stopper = .returned ∧
    (∀ t, (s'.writers t).gone = false) ∧ s'.emitted = [] ∧
    ¬EmittedOnce s' ⟨true,1,.fast,8⟩ := by
  obtain ⟨s,s',hbefore,hrunning,hpushes,hafter,hreturned,halive,hemitted⟩ :
      ∃ s s' : State Bool ℕ, Transition.run step start stalled = some s ∧ s.gRunning = true ∧
      (s.tBuf true).pushes = [⟨true,1,.fast,8⟩] ∧
      Transition.run step s (lastPass 8) = some s' ∧ s'.stopper = .returned ∧
      (∀ t, (s'.writers t).gone = false) ∧ s'.emitted = [] :=
    ⟨_,_,rfl,rfl,rfl,rfl,rfl,by decide,rfl⟩
  refine ⟨s,s',hbefore,hrunning,hpushes,hafter,hreturned,halive,hemitted,?_⟩
  rintro ⟨i,hi,-⟩
  rw [hemitted] at hi
  cases hi

end LogDrain
end Marketlib
