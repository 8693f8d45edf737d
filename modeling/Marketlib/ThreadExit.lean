import Marketlib.LogOrder

/-! Threads that exit under the drain. The drain keeps every buffer that it has heard of and
visits it in each pass, the last one included. It never accesses a buffer that is gone when
threads that have one exit behind its last visit; a thread that exits before `Drain::stop` is
called loses records, or the drain accesses its buffer. -/

namespace Marketlib
namespace LogDrain

variable {ι τ : Type}

/-- It has found `g_running` false. -/
def DrainPc.final {σ : Type} : DrainPc ι σ → Bool
  | .register final => final
  | .registering final => final
  | .visit final _ => final
  | .popping final _ _ => final
  | .emitting final _ _ _ => final
  | .debug final => final
  | .debugPopping final => final
  | .debugEmitting final _ => final
  | .returned => true
  | _ => false

/-- It has still to take registrations before it visits the buffers. -/
def DrainPc.collecting {σ : Type} : DrainPc ι σ → Bool
  | .register _ => true
  | .registering _ => true
  | _ => false

/-- The threads whose registration is in the queue or was. -/
def State.claims (s : State ι τ) : List ι := s.registerQueue.mem.pushes.map Prod.snd

/-- The buffers that `drain_loop` may still access. -/
def State.toVisit (s : State ι τ) : List ι :=
  if s.drain.final && !s.drain.collecting then s.drain.visiting else s.claims

/-- A thread that has a `LogBuffer` exits when `Drain::stop` has been called and `drain_loop`
has no more use for the buffer. -/
def MayExit (s : State ι τ) : Action ι τ → Prop
  | .exit t => s.tRegistered t = true → s.gRunning = false ∧ t ∉ s.toVisit
  | _ => True

instance decidableMayExit [DecidableEq ι] (s : State ι τ) : ∀ a, Decidable (MayExit s a)
  | .exit t =>
    inferInstanceAs (Decidable (s.tRegistered t = true → s.gRunning = false ∧ t ∉ s.toVisit))
  | .write .. => isTrue trivial
  | .access .. => isTrue trivial
  | .drain => isTrue trivial
  | .stop => isTrue trivial

/-- Handed to `emit`, once. -/
def EmittedOnce (s : State ι τ) (entry : Entry ι τ) : Prop := ∃! i : ℕ, s.emitted[i]? = some entry

/-- The drain survives the exits so far. -/
structure Survives (s : State ι τ) : Prop where
  no_dangling : ∀ buf, s.drain ≠ .dangling buf
  /-- What a thread that exited before `Drain::stop` was called has put in its buffer. -/
  emitted_once : s.drain = .returned → ∀ t ∈ s.left, ∀ entry ∈ (s.tBuf t).pushes,
    EmittedOnce s entry

variable [DecidableEq ι] {s s' : State ι τ} {t : ι}

/-! ### The drain and the buffers it knows -/

/-- What a step of `drain_loop` leaves alone. -/
theorem drainLoop_frame (h : drainLoop s s.drain = some s') :
    s'.writers = s.writers ∧ s'.tRegistered = s.tRegistered ∧ s'.left = s.left ∧
      s'.gRunning = s.gRunning ∧ s'.registerQueue.calls = s.registerQueue.calls ∧
      s'.claims = s.claims ∧ ∀ t, (s'.tBuf t).pushes = (s.tBuf t).pushes := by
  have hregister {q : MpscQueue.State registerCapacity ι ι} {b : MpscQueue.PopAction}
      (hq : MpscQueue.step s.registerQueue (.pop b) = some q) :
      q.calls = s.registerQueue.calls ∧
        q.mem.pushes.map Prod.snd = s.registerQueue.mem.pushes.map Prod.snd := by
    obtain ⟨hpushes,-,-,hcalls⟩ := MpscQueue.tryPop_frame hq
    exact ⟨hcalls,by rw [hpushes]⟩
  have hbuffer {buf : ι} {b : SpscQueue.State kCapacity (Entry ι τ)}
      (hpushes : b.pushes = (s.tBuf buf).pushes) (t : ι) :
      (Function.update s.tBuf buf b t).pushes = (s.tBuf t).pushes := by
    rcases eq_or_ne t buf with rfl | hne
    · rw [Function.update_self,hpushes]
    · rw [Function.update_of_ne hne]
  rcases drainLoop_cases h with ⟨hpc,rfl⟩ | ⟨final,q,hpc,hq,rfl⟩ |
    ⟨final,q,hpc,hq,⟨buf,hret,rfl⟩ | ⟨-,rfl⟩ | ⟨-,rfl⟩⟩ | ⟨final,hpc,rfl⟩ |
    ⟨final,buf,rest,hpc,hgone,rfl⟩ | ⟨final,buf,rest,b,hpc,hgone,hb,rfl⟩ |
    ⟨final,buf,rest,b,hpc,hgone,hb,⟨entry,-,rfl⟩ | ⟨-,rfl⟩ | ⟨-,rfl⟩⟩ |
    ⟨final,buf,rest,entry,hpc,rfl⟩ | ⟨final,q,hpc,-,rfl⟩ |
    ⟨final,q,hpc,-,⟨entry,-,rfl⟩ | ⟨-,rfl⟩ | ⟨-,rfl⟩⟩ | ⟨final,entry,hpc,rfl⟩
  · exact ⟨rfl,rfl,rfl,rfl,rfl,rfl,fun _ => rfl⟩
  · exact ⟨rfl,rfl,rfl,rfl,(hregister hq).1,(hregister hq).2,fun _ => rfl⟩
  · exact ⟨rfl,rfl,rfl,rfl,(hregister hq).1,(hregister hq).2,fun _ => rfl⟩
  · exact ⟨rfl,rfl,rfl,rfl,(hregister hq).1,(hregister hq).2,fun _ => rfl⟩
  · exact ⟨rfl,rfl,rfl,rfl,(hregister hq).1,(hregister hq).2,fun _ => rfl⟩
  · exact ⟨rfl,rfl,rfl,rfl,rfl,rfl,fun _ => rfl⟩
  · exact ⟨rfl,rfl,rfl,rfl,rfl,rfl,fun _ => rfl⟩
  · obtain ⟨-,rfl⟩ := SpscQueue.callPop_cases hb
    exact ⟨rfl,rfl,rfl,rfl,rfl,rfl,hbuffer rfl⟩
  · exact ⟨rfl,rfl,rfl,rfl,rfl,rfl,hbuffer (SpscQueue.step_pop_value hb).1⟩
  · exact ⟨rfl,rfl,rfl,rfl,rfl,rfl,hbuffer (SpscQueue.step_pop_value hb).1⟩
  · exact ⟨rfl,rfl,rfl,rfl,rfl,rfl,hbuffer (SpscQueue.step_pop_value hb).1⟩
  all_goals exact ⟨rfl,rfl,rfl,rfl,rfl,rfl,fun _ => rfl⟩

/-- How a step of `drain_loop` moves through the buffers. -/
theorem drainLoop_visits (h : drainLoop s s.drain = some s') :
    (s'.buffers = s.buffers ∧ s'.drain.visiting = s.drain.visiting ∧
      s'.drain.final = s.drain.final ∧ s'.drain.collecting = s.drain.collecting ∧
      ∀ buf, s'.drain ≠ .dangling buf) ∨
    (∃ buf ∈ s.drain.visiting, (s.writers buf).gone = true ∧ s'.drain = .dangling buf ∧
      s'.buffers = s.buffers) ∨
    (s.drain = .test ∧ s'.drain = .register !s.gRunning ∧ s'.buffers = s.buffers) ∨
    (∃ final buf, s.drain = .registering final ∧ s'.drain = .register final ∧
      s'.buffers = s.buffers ++ [buf] ∧ buf ∈ s'.registerQueue.pops) ∨
    (∃ final, s.drain = .registering final ∧ s'.drain = .visit final s.buffers ∧
      s'.buffers = s.buffers) ∨
    (∃ final buf rest, s.drain = .popping final buf rest ∧ (s.writers buf).gone = false ∧
      s'.drain = .visit final rest ∧ s'.buffers = s.buffers) ∨
    ∃ final, s.drain = .debugPopping final ∧ s'.drain = (if final then .returned else .test) ∧
      s'.buffers = s.buffers := by
  have hstay {pc pc' : DrainPc ι (Entry ι τ)} (hpc : s.drain = pc)
      (hpc' : s'.drain = pc') (hbufs : s'.buffers = s.buffers)
      (hvisiting : pc'.visiting = pc.visiting) (hfinal : pc'.final = pc.final)
      (hcollecting : pc'.collecting = pc.collecting) (hdangling : ∀ buf, pc' ≠ .dangling buf) :
      s'.buffers = s.buffers ∧ s'.drain.visiting = s.drain.visiting ∧
        s'.drain.final = s.drain.final ∧ s'.drain.collecting = s.drain.collecting ∧
        ∀ buf, s'.drain ≠ .dangling buf := by
    rw [hpc,hpc']
    exact ⟨hbufs,hvisiting,hfinal,hcollecting,hdangling⟩
  rcases drainLoop_cases h with ⟨hpc,rfl⟩ | ⟨final,q,hpc,hq,rfl⟩ |
    ⟨final,q,hpc,hq,⟨buf,hret,rfl⟩ | ⟨-,rfl⟩ | ⟨-,rfl⟩⟩ | ⟨final,hpc,rfl⟩ |
    ⟨final,buf,rest,hpc,hgone,rfl⟩ | ⟨final,buf,rest,b,hpc,hgone,hb,rfl⟩ |
    ⟨final,buf,rest,b,hpc,hgone,hb,⟨entry,-,rfl⟩ | ⟨-,rfl⟩ | ⟨-,rfl⟩⟩ |
    ⟨final,buf,rest,entry,hpc,rfl⟩ | ⟨final,q,hpc,-,rfl⟩ |
    ⟨final,q,hpc,-,⟨entry,-,rfl⟩ | ⟨-,rfl⟩ | ⟨-,rfl⟩⟩ | ⟨final,entry,hpc,rfl⟩
  · exact .inr (.inr (.inl ⟨hpc,rfl,rfl⟩))
  · exact .inl (hstay hpc rfl rfl rfl rfl rfl (by simp))
  · refine .inr (.inr (.inr (.inl ⟨final,buf,hpc,rfl,rfl,?_⟩)))
    rcases MpscQueue.tryPop_pops hq with ⟨v,hv,hpops⟩ | ⟨hv,-⟩
    · cases hret.symm.trans hv
      change buf ∈ q.pops
      rw [hpops]
      simp
    · exact absurd hret (hv buf)
  · exact .inr (.inr (.inr (.inr (.inl ⟨final,hpc,rfl,rfl⟩))))
  · exact .inl (hstay hpc hpc rfl rfl rfl rfl (by simp))
  · exact .inl (hstay hpc rfl rfl rfl rfl rfl (by simp))
  · refine .inr (.inl ⟨buf,?_,hgone,rfl,rfl⟩)
    rcases hpc with hpc | hpc <;> simp [hpc,DrainPc.visiting]
  · exact .inl (hstay hpc rfl rfl rfl rfl rfl (by simp))
  · exact .inl (hstay hpc rfl rfl rfl rfl rfl (by simp))
  · exact .inr (.inr (.inr (.inr (.inr (.inl ⟨final,buf,rest,hpc,hgone,rfl,rfl⟩)))))
  · exact .inl (hstay hpc hpc rfl rfl rfl rfl (by simp))
  · exact .inl (hstay hpc rfl rfl rfl rfl rfl (by simp))
  · exact .inl (hstay hpc rfl rfl rfl rfl rfl (by simp))
  · exact .inl (hstay hpc rfl rfl rfl rfl rfl (by simp))
  · exact .inr (.inr (.inr (.inr (.inr (.inr ⟨final,hpc,rfl,rfl⟩)))))
  · exact .inl (hstay hpc hpc rfl rfl rfl rfl (by simp))
  · exact .inl (hstay hpc rfl rfl rfl rfl rfl (by simp))

/-! ### Registrations -/

/-- A thread registers its own buffer when it first writes by the fast path, and that write
is not refused. -/
structure Enrolled (s : State ι τ) (t : ι) : Prop where
  calls : ∀ buf ∈ s.registerQueue.calls t, buf = t
  never : s.tRegistered t = false → (∀ entry, s.writers t ≠ .pushing entry) ∧
    (s.tBuf t).pushes = [] ∧
    ((∀ entry, s.writers t ≠ .registering entry) → s.registerQueue.calls t = [])
  pushed : s.tRegistered t = true → (∀ entry, s.writers t ≠ .pushing entry) →
    (s.tBuf t).pushes ≠ []

structure Tracked (s : State ι τ) : Prop where
  registerQueue : Transition.Reachable MpscQueue.step MpscQueue.start s.registerQueue
  enrolled : ∀ t, Enrolled s t
  buffers : ∀ buf ∈ s.buffers, buf ∈ s.claims
  visiting : ∀ buf ∈ s.drain.visiting, buf ∈ s.buffers
  stopped : s.drain.final = true → s.gRunning = false

omit [DecidableEq ι] in
theorem start_enrolled (t : ι) : Enrolled (start : State ι τ) t where
  calls := nofun
  never := fun _ => ⟨nofun,rfl,fun _ => rfl⟩
  pushed := nofun

theorem start_tracked : Tracked (start : State ι τ) where
  registerQueue := .start
  enrolled := start_enrolled
  buffers := nofun
  visiting := nofun
  stopped := nofun

omit [DecidableEq ι] in
/-- Nothing of the thread was touched. -/
theorem Enrolled.frame (h : Enrolled s t)
    (hcalls : s'.registerQueue.calls t = s.registerQueue.calls t)
    (hregistered : s'.tRegistered t = s.tRegistered t) (hwriter : s'.writers t = s.writers t)
    (hpushes : (s'.tBuf t).pushes = (s.tBuf t).pushes) : Enrolled s' t where
  calls := by
    rw [hcalls]
    exact h.calls
  never := by
    rw [hregistered,hwriter,hpushes,hcalls]
    exact h.never
  pushed := by
    rw [hregistered,hwriter,hpushes]
    exact h.pushed

omit [DecidableEq ι] in
/-- The thread was not in a fast write, and is not in one. -/
theorem Enrolled.setWriter (h : Enrolled s t) {pc : WriterPc (Entry ι τ)}
    (hold : (s.writers t).pending = []) (hwriter : s'.writers t = pc) (hnew : pc.pending = [])
    (hcalls : s'.registerQueue.calls t = s.registerQueue.calls t)
    (hregistered : s'.tRegistered t = s.tRegistered t)
    (hpushes : (s'.tBuf t).pushes = (s.tBuf t).pushes) : Enrolled s' t := by
  have hfree {pc : WriterPc (Entry ι τ)} (hpc : pc.pending = []) (entry : Entry ι τ) :
      pc ≠ .pushing entry ∧ pc ≠ .registering entry := by
    constructor <;> rintro rfl <;> cases hpc
  exact {
    calls := by
      rw [hcalls]
      exact h.calls
    never := fun hreg => by
      rw [hregistered] at hreg
      rw [hwriter,hpushes,hcalls]
      obtain ⟨-,hempty,hnone⟩ := h.never hreg
      exact ⟨fun entry => (hfree hnew entry).1,hempty,
        fun _ => hnone fun entry => (hfree hold entry).2⟩
    pushed := fun hreg _ => by
      rw [hregistered] at hreg
      rw [hpushes]
      exact h.pushed hreg fun entry => (hfree hold entry).1 }

theorem write_enrolled {args : ArgTypes} {record : τ} (h : ∀ u, Enrolled s u)
    (hstep : write s t args record = some s') : ∀ u, Enrolled s' u := by
  obtain ⟨hidle,entry,-,⟨b,-,hreg,hb,rfl⟩ | ⟨q,-,hreg,hq,rfl⟩ | ⟨q,-,-,rfl⟩⟩ := write_cases hstep
  · obtain ⟨-,rfl⟩ := SpscQueue.callPush_cases hb
    intro u
    rcases eq_or_ne u t with rfl | hne
    · exact {
        calls := (h u).calls
        never := fun hnot => absurd (hreg.symm.trans hnot) nofun
        pushed := fun _ hpc => absurd (Function.update_self ..) (hpc entry) }
    · exact (h u).frame rfl rfl (Function.update_of_ne hne ..)
        (congrArg _ (Function.update_of_ne hne ..))
  · have hcalls : q.calls =
        Function.update s.registerQueue.calls t (s.registerQueue.calls t ++ [t]) := by
      rw [MpscQueue.step_call hq]
    intro u
    rcases eq_or_ne u t with rfl | hne
    · exact {
        calls := fun buf hbuf => by
          change buf ∈ q.calls u at hbuf
          rw [hcalls,Function.update_self] at hbuf
          rcases List.mem_append.mp hbuf with hbuf | hbuf
          · exact (h u).calls buf hbuf
          · exact List.mem_singleton.mp hbuf
        never := fun _ => by
          refine ⟨fun x hx => ?_,((h u).never hreg).2.1,
            fun hpc => absurd (Function.update_self ..) (hpc entry)⟩
          cases (Function.update_self ..).symm.trans hx
        pushed := fun hnot => absurd (hreg.symm.trans hnot) nofun }
    · exact (h u).frame (by change q.calls u = _; rw [hcalls,Function.update_of_ne hne]) rfl
        (Function.update_of_ne hne ..) rfl
  · intro u
    rcases eq_or_ne u t with rfl | hne
    · exact (h u).setWriter (by rw [hidle]; rfl) (Function.update_self ..) rfl rfl rfl rfl
    · exact (h u).frame rfl rfl (Function.update_of_ne hne ..) rfl

theorem access_enrolled {spurious : Bool} (hlogged : Logged s) (h : ∀ u, Enrolled s u)
    (hstep : access s t spurious (s.writers t) = some s') : ∀ u, Enrolled s' u := by
  rcases access_cases hstep with ⟨entry,a,q,hpc,ha,hq,⟨b,hb,rfl⟩ | rfl⟩ |
    ⟨entry,b,hpc,hb,⟨ok,hret,rfl⟩ | ⟨-,rfl⟩⟩ | ⟨entry,a,q,hpc,-,-,rfl | rfl⟩ |
    ⟨b,pc,hpc,hpushes,hgone,rfl⟩
  · have hcalls := (MpscQueue.step_inCall ha hq).1
    obtain ⟨-,rfl⟩ := SpscQueue.callPush_cases hb
    intro u
    rcases eq_or_ne u t with rfl | hne
    · exact {
        calls := by
          rw [hcalls]
          exact (h u).calls
        never := fun hnot => by cases (Function.update_self ..).symm.trans hnot
        pushed := fun _ hpc => absurd (Function.update_self ..) (hpc entry) }
    · exact (h u).frame (by rw [hcalls]) (Function.update_of_ne hne ..)
        (Function.update_of_ne hne ..) (congrArg _ (Function.update_of_ne hne ..))
  · exact fun u => (h u).frame (by rw [(MpscQueue.step_inCall ha hq).1]) rfl rfl rfl
  · have hinv := ((hlogged.served t).buffer (by rw [hpc]; rfl)).1
    have hnext : (Function.update s.tBuf t b t).pushes = b.pushes := by rw [Function.update_self]
    intro u
    rcases eq_or_ne u t with rfl | hne
    · exact {
        calls := (h u).calls
        never := fun hnot => absurd hpc (((h u).never hnot).1 entry)
        pushed := fun _ _ hnil => SpscQueue.step_push_ne_nil hinv hb hret (hnext.symm.trans hnil) }
    · exact (h u).frame rfl rfl (Function.update_of_ne hne ..)
        (congrArg _ (Function.update_of_ne hne ..))
  · intro u
    rcases eq_or_ne u t with rfl | hne
    · exact {
        calls := (h u).calls
        never := fun hnot => absurd hpc (((h u).never hnot).1 entry)
        pushed := fun _ hnot => absurd hpc (hnot entry) }
    · exact (h u).frame rfl rfl rfl (congrArg _ (Function.update_of_ne hne ..))
  · intro u
    rcases eq_or_ne u t with rfl | hne
    · exact (h u).setWriter (by rw [hpc]; rfl) (Function.update_self ..) rfl rfl rfl rfl
    · exact (h u).frame rfl rfl (Function.update_of_ne hne ..) rfl
  · exact fun u => (h u).frame rfl rfl rfl rfl
  · intro u
    rcases eq_or_ne u t with rfl | hne
    · exact (h u).setWriter (by rw [hpc]; rfl) (Function.update_self ..)
        (by rcases hgone with rfl | rfl <;> rfl) rfl rfl
        ((congrArg _ (Function.update_self ..)).trans hpushes)
    · exact (h u).frame rfl rfl (Function.update_of_ne hne ..)
        (congrArg _ (Function.update_of_ne hne ..))

theorem exit_enrolled (h : ∀ u, Enrolled s u) (hstep : exit s t = some s') :
    ∀ u, Enrolled s' u := by
  obtain ⟨hidle,pc,b,hpushes,hpc,rfl⟩ := exit_cases hstep
  intro u
  rcases eq_or_ne u t with rfl | hne
  · exact (h u).setWriter (by rw [hidle]; rfl) (Function.update_self ..)
      (by rcases hpc with ⟨-,rfl⟩ | ⟨-,rfl⟩ <;> rfl) rfl rfl
      ((congrArg _ (Function.update_self ..)).trans hpushes)
  · exact (h u).frame rfl rfl (Function.update_of_ne hne ..)
      (congrArg _ (Function.update_of_ne hne ..))

theorem Tracked.calls_of_mem (h : Tracked s) (hmem : t ∈ s.claims) :
    t ∈ s.registerQueue.calls t := by
  obtain ⟨⟨u,buf⟩,hclaim,rfl⟩ := List.mem_map.mp hmem
  have hcall := MpscQueue.calls_of_mem_pushes h.registerQueue hclaim
  have hself := (h.enrolled u).calls buf hcall
  rwa [← hself] at hcall

/-- The drain never hears of a thread that has not called `try_push` to register. -/
theorem Tracked.not_mem_claims (h : Tracked s) (hpc : ∀ entry, s.writers t ≠ .registering entry)
    (hreg : s.tRegistered t = false) : t ∉ s.claims := by
  intro hmem
  have hcall := h.calls_of_mem hmem
  rw [((h.enrolled t).never hreg).2.2 hpc] at hcall
  cases hcall

theorem Tracked.toVisit_subset (h : Tracked s) : s.toVisit ⊆ s.claims := by
  rw [State.toVisit]
  split_ifs
  · exact fun buf hbuf => h.buffers buf (h.visiting buf hbuf)
  · exact List.Subset.refl _

theorem Tracked.visiting_subset (h : Tracked s) : s.drain.visiting ⊆ s.toVisit := by
  rw [State.toVisit]
  split_ifs
  · exact List.Subset.refl _
  · exact fun buf hbuf => h.buffers buf (h.visiting buf hbuf)

/-! ### Steps of a thread -/

theorem gone_update {σ : Type} (writers : ι → WriterPc σ) (t : ι) (pc : WriterPc σ) :
    (Function.update writers t pc t).gone = pc.gone := by rw [Function.update_self]

/-- What a step of thread `t` means for the drain. -/
structure Aside (t : ι) (s s' : State ι τ) : Prop where
  gRunning : s'.gRunning = s.gRunning
  drain : s'.drain = s.drain
  buffers : s'.buffers = s.buffers
  emitted : s'.emitted = s.emitted
  claims : s.claims ⊆ s'.claims
  registered : ∀ buf ∈ s'.claims, buf ∈ s.claims ∨ buf = t ∧ (s'.writers t).gone = false
  others : ∀ u, u ≠ t → s'.writers u = s.writers u ∧ s'.tRegistered u = s.tRegistered u
  stays : (s.writers t).gone = true →
    (s'.writers t).gone = true ∧ s'.tRegistered t = s.tRegistered t

omit [DecidableEq ι] in
/-- A thread that is gone stays so. -/
theorem Aside.gone {u : ι} (h : Aside u s s') (hgone : (s.writers t).gone = true) :
    (s'.writers t).gone = true ∧ s'.tRegistered t = s.tRegistered t := by
  rcases eq_or_ne t u with rfl | hne
  · exact h.stays hgone
  · obtain ⟨hwriter,hregistered⟩ := h.others t hne
    exact ⟨by rw [hwriter]; exact hgone,hregistered⟩

omit [DecidableEq ι] in
/-- A step that registers nothing. -/
theorem Aside.of_claims (hrest : s'.gRunning = s.gRunning ∧ s'.drain = s.drain ∧
      s'.buffers = s.buffers ∧ s'.emitted = s.emitted) (hclaims : s'.claims = s.claims)
    (hothers : ∀ u, u ≠ t → s'.writers u = s.writers u ∧ s'.tRegistered u = s.tRegistered u)
    (hstays : (s.writers t).gone = true →
      (s'.writers t).gone = true ∧ s'.tRegistered t = s.tRegistered t) : Aside t s s' := by
  obtain ⟨hrunning,hdrain,hbuffers,hemitted⟩ := hrest
  refine ⟨hrunning,hdrain,hbuffers,hemitted,?_,?_,hothers,hstays⟩ <;> rw [hclaims]
  · exact List.Subset.refl _
  · exact fun _ => .inl

omit [DecidableEq ι] in
theorem absurd_gone {P : Prop} (halive : (s.writers t).gone = false)
    (hgone : (s.writers t).gone = true) : P := absurd (halive.symm.trans hgone) nofun

theorem write_aside {args : ArgTypes} {record : τ} (h : write s t args record = some s') :
    Aside t s s' ∧ (s'.writers t).gone = false ∧ s'.left = s.left := by
  obtain ⟨hidle,entry,-,hcases⟩ := write_cases h
  have halive : (s.writers t).gone = false := by
    rw [hidle]
    rfl
  rcases hcases with ⟨b,-,-,-,rfl⟩ | ⟨q,-,-,hq,rfl⟩ | ⟨q,-,-,rfl⟩
  · exact ⟨.of_claims ⟨rfl,rfl,rfl,rfl⟩ rfl (fun u hu => ⟨Function.update_of_ne hu ..,rfl⟩)
      (absurd_gone halive),gone_update ..,rfl⟩
  · have hpushes : q.mem.pushes = s.registerQueue.mem.pushes := by rw [MpscQueue.step_call hq]
    exact ⟨.of_claims ⟨rfl,rfl,rfl,rfl⟩ (congrArg (List.map Prod.snd) hpushes)
      (fun u hu => ⟨Function.update_of_ne hu ..,rfl⟩) (absurd_gone halive),gone_update ..,rfl⟩
  · exact ⟨.of_claims ⟨rfl,rfl,rfl,rfl⟩ rfl (fun u hu => ⟨Function.update_of_ne hu ..,rfl⟩)
      (absurd_gone halive),gone_update ..,rfl⟩

/-- The steps of a registration. -/
theorem register_aside {entry : Entry ι τ} {a : PushAction ι}
    {q : MpscQueue.State registerCapacity ι ι} (h : Tracked s)
    (hpc : s.writers t = .registering entry) (ha : PushAction.value a = none)
    (hq : MpscQueue.step s.registerQueue (.push t a) = some q) (hqueue : s'.registerQueue = q)
    (hrest : s'.gRunning = s.gRunning ∧ s'.drain = s.drain ∧ s'.buffers = s.buffers ∧
      s'.emitted = s.emitted)
    (hothers : ∀ u, u ≠ t → s'.writers u = s.writers u ∧ s'.tRegistered u = s.tRegistered u)
    (halive : (s'.writers t).gone = false) : Aside t s s' := by
  have hreach : Transition.Reachable MpscQueue.step MpscQueue.start q :=
    .next h.registerQueue trivial hq
  obtain ⟨hcalls,-,-,-,x,-,hx⟩ := MpscQueue.step_inCall ha hq
  have hpushes : q.mem.pushes = s.registerQueue.mem.pushes ∨
      q.mem.pushes = s.registerQueue.mem.pushes ++ [(t,x)] := by
    rcases hx with ⟨hsame,-⟩ | ⟨hgrow,-⟩ | ⟨hsame,-⟩ | ⟨hsame,-⟩
    · exact .inl hsame
    · exact .inr hgrow
    · exact .inl hsame
    · exact .inl hsame
  obtain ⟨hrunning,hdrain,hbuffers,hemitted⟩ := hrest
  refine ⟨hrunning,hdrain,hbuffers,hemitted,?_,fun buf hbuf => ?_,hothers,
    absurd_gone (by rw [hpc]; rfl)⟩
  · rw [State.claims,State.claims,hqueue]
    rcases hpushes with hsame | hgrow
    · rw [hsame]
      exact List.Subset.refl _
    · rw [hgrow,List.map_append]
      exact List.subset_append_left ..
  · rw [State.claims,hqueue] at hbuf
    rcases hpushes with hsame | hgrow
    · rw [hsame] at hbuf
      exact .inl hbuf
    · rw [hgrow,List.map_append] at hbuf
      rcases List.mem_append.mp hbuf with hbuf | hbuf
      · exact .inl hbuf
      · rw [List.mem_singleton.mp hbuf]
        have hin : (t,x) ∈ q.mem.pushes := by
          rw [hgrow]
          simp
        have hcall := MpscQueue.calls_of_mem_pushes hreach hin
        rw [hcalls] at hcall
        exact .inr ⟨(h.enrolled t).calls x hcall,halive⟩

theorem access_aside {spurious : Bool} (h : Tracked s)
    (hstep : access s t spurious (s.writers t) = some s') :
    Aside t s s' ∧ (s'.writers t).gone = (s.writers t).gone ∧ s'.left = s.left := by
  rcases access_cases hstep with ⟨entry,a,q,hpc,ha,hq,⟨b,-,rfl⟩ | rfl⟩ |
    ⟨entry,b,hpc,-,⟨ok,-,rfl⟩ | ⟨-,rfl⟩⟩ | ⟨entry,a,q,hpc,-,-,rfl | rfl⟩ | ⟨b,pc,hpc,-,hgone,rfl⟩
  · refine ⟨register_aside h hpc ha hq rfl ⟨rfl,rfl,rfl,rfl⟩
      (fun u hu => ⟨Function.update_of_ne hu ..,Function.update_of_ne hu ..⟩)
      (gone_update ..),?_,rfl⟩
    rw [hpc]
    exact gone_update ..
  · exact ⟨register_aside h hpc ha hq rfl ⟨rfl,rfl,rfl,rfl⟩ (fun _ _ => ⟨rfl,rfl⟩)
      (by rw [hpc]; rfl),rfl,rfl⟩
  · refine ⟨.of_claims ⟨rfl,rfl,rfl,rfl⟩ rfl (fun u hu => ⟨Function.update_of_ne hu ..,rfl⟩)
      (absurd_gone (by rw [hpc]; rfl)),?_,rfl⟩
    rw [hpc]
    exact gone_update ..
  · exact ⟨.of_claims ⟨rfl,rfl,rfl,rfl⟩ rfl (fun _ _ => ⟨rfl,rfl⟩) fun hgone => ⟨hgone,rfl⟩,
      rfl,rfl⟩
  · refine ⟨.of_claims ⟨rfl,rfl,rfl,rfl⟩ rfl (fun u hu => ⟨Function.update_of_ne hu ..,rfl⟩)
      (absurd_gone (by rw [hpc]; rfl)),?_,rfl⟩
    rw [hpc]
    exact gone_update ..
  · exact ⟨.of_claims ⟨rfl,rfl,rfl,rfl⟩ rfl (fun _ _ => ⟨rfl,rfl⟩) fun hgone => ⟨hgone,rfl⟩,
      rfl,rfl⟩
  · have hstill : (Function.update s.writers t pc t).gone = true := by
      rw [gone_update]
      rcases hgone with rfl | rfl <;> rfl
    refine ⟨.of_claims ⟨rfl,rfl,rfl,rfl⟩ rfl (fun u hu => ⟨Function.update_of_ne hu ..,rfl⟩)
      fun _ => ⟨hstill,rfl⟩,?_,rfl⟩
    rw [hpc]
    exact hstill

theorem exit_aside (h : exit s t = some s') : s.writers t = .idle ∧ Aside t s s' ∧
    s'.tRegistered = s.tRegistered ∧ (s'.writers t).gone = true ∧
    s'.left = if s.gRunning then s.left ++ [t] else s.left := by
  obtain ⟨hidle,pc,b,-,hpc,rfl⟩ := exit_cases h
  refine ⟨hidle,.of_claims ⟨rfl,rfl,rfl,rfl⟩ rfl (fun u hu => ⟨Function.update_of_ne hu ..,rfl⟩)
    (absurd_gone (by rw [hidle]; rfl)),rfl,?_,rfl⟩
  refine (gone_update ..).trans ?_
  rcases hpc with ⟨-,rfl⟩ | ⟨-,rfl⟩ <;> rfl

theorem Aside.tracked {u : ι} (h : Aside u s s') (htracked : Tracked s)
    (hreach : Transition.Reachable MpscQueue.step MpscQueue.start s'.registerQueue)
    (henrolled : ∀ t, Enrolled s' t) : Tracked s' where
  registerQueue := hreach
  enrolled := henrolled
  buffers := by
    rw [h.buffers]
    exact fun buf hbuf => h.claims (htracked.buffers buf hbuf)
  visiting := by
    rw [h.drain,h.buffers]
    exact htracked.visiting
  stopped := by
    rw [h.drain,h.gRunning]
    exact htracked.stopped

theorem drainLoop_tracked (h : Tracked s) (hstep : drainLoop s s.drain = some s') : Tracked s' := by
  have hreach := (step_moves (a := .drain) hstep).1.reachable h.registerQueue
  obtain ⟨hwriters,hregistered,-,hrunning,hcalls,hclaims,hpushes⟩ := drainLoop_frame hstep
  have henrolled (t : ι) : Enrolled s' t :=
    (h.enrolled t).frame (by rw [hcalls]) (by rw [hregistered]) (by rw [hwriters]) (hpushes t)
  have hsame (hbuffers : s'.buffers = s.buffers) : ∀ buf ∈ s'.buffers, buf ∈ s'.claims := by
    rw [hbuffers,hclaims]
    exact h.buffers
  rcases drainLoop_visits hstep with ⟨hbuffers,hvisiting,hfinal,-,-⟩ |
    ⟨buf,-,-,hpc,hbuffers⟩ | ⟨hold,hpc,hbuffers⟩ | ⟨final,buf,hold,hpc,hbuffers,hpop⟩ |
    ⟨final,hold,hpc,hbuffers⟩ | ⟨final,buf,rest,hold,-,hpc,hbuffers⟩ | ⟨final,hold,hpc,hbuffers⟩
  · refine ⟨hreach,henrolled,hsame hbuffers,?_,?_⟩
    · rw [hvisiting,hbuffers]
      exact h.visiting
    · rw [hfinal,hrunning]
      exact h.stopped
  · exact ⟨hreach,henrolled,hsame hbuffers,by rw [hpc]; nofun,by rw [hpc]; nofun⟩
  · refine ⟨hreach,henrolled,hsame hbuffers,by rw [hpc]; nofun,?_⟩
    rw [hpc,hrunning]
    intro hfinal
    simpa [DrainPc.final] using hfinal
  · refine ⟨hreach,henrolled,?_,by rw [hpc]; nofun,?_⟩
    · rw [hbuffers]
      intro x hx
      rcases List.mem_append.mp hx with hx | hx
      · rw [hclaims]
        exact h.buffers x hx
      · rw [List.mem_singleton.mp hx]
        exact (MpscQueue.reachable_held hreach).pops buf hpop
    · rw [hpc,hrunning]
      intro hfinal
      exact h.stopped (by rw [hold]; exact hfinal)
  · refine ⟨hreach,henrolled,hsame hbuffers,?_,?_⟩
    · rw [hpc,hbuffers]
      exact fun _ => id
    · rw [hpc,hrunning]
      intro hfinal
      exact h.stopped (by rw [hold]; exact hfinal)
  · refine ⟨hreach,henrolled,hsame hbuffers,?_,?_⟩
    · rw [hpc,hbuffers]
      intro x hx
      exact h.visiting x (by rw [hold]; exact List.mem_cons_of_mem _ hx)
    · rw [hpc,hrunning]
      intro hfinal
      exact h.stopped (by rw [hold]; exact hfinal)
  · refine ⟨hreach,henrolled,hsame hbuffers,?_,?_⟩
    · rw [hpc]
      cases final <;> nofun
    · rw [hpc,hrunning]
      cases final
      · nofun
      · exact fun _ => h.stopped (by rw [hold]; rfl)

theorem step_tracked {a : Action ι τ} (hlogged : Logged s) (h : Tracked s)
    (hstep : step s a = some s') : Tracked s' := by
  have hreach := (step_moves hstep).1.reachable h.registerQueue
  cases a with
  | write t args record =>
    exact (write_aside hstep).1.tracked h hreach (write_enrolled h.enrolled hstep)
  | access t spurious =>
    exact (access_aside h hstep).1.tracked h hreach (access_enrolled hlogged h.enrolled hstep)
  | exit t => exact (exit_aside hstep).2.1.tracked h hreach (exit_enrolled h.enrolled hstep)
  | drain => exact drainLoop_tracked h hstep
  | stop =>
    rcases stop_cases hstep with ⟨-,rfl⟩ | ⟨-,-,rfl⟩
    · exact ⟨hreach,fun u => (h.enrolled u).frame rfl rfl rfl rfl,h.buffers,h.visiting,fun _ => rfl⟩
    · exact ⟨hreach,fun u => (h.enrolled u).frame rfl rfl rfl rfl,h.buffers,h.visiting,h.stopped⟩

/-! ### Exits behind the last visit -/

structure Safe (s : State ι τ) : Prop where
  gone : ∀ t, (s.writers t).gone = true → t ∉ s.toVisit
  no_dangling : ∀ buf, s.drain ≠ .dangling buf
  left : ∀ t ∈ s.left, (s.writers t).gone = true ∧ s.tRegistered t = false

omit [DecidableEq ι] in
theorem start_safe : Safe (start : State ι τ) where
  gone := nofun
  no_dangling := nofun
  left := nofun

omit [DecidableEq ι] in
theorem Aside.toVisit {u : ι} (h : Aside u s s') (hmem : t ∈ s'.toVisit) :
    t ∈ s.toVisit ∨ t = u ∧ (s'.writers u).gone = false := by
  rw [State.toVisit,h.drain] at hmem
  rw [State.toVisit]
  split_ifs at hmem ⊢
  · exact .inl hmem
  · exact h.registered t hmem

omit [DecidableEq ι] in
/-- A step of thread `u` that does not exit. -/
theorem Aside.safe {u : ι} (h : Aside u s s') (hsafe : Safe s)
    (hgone : (s'.writers u).gone = true → (s.writers u).gone = true) (hleft : s'.left = s.left) :
    Safe s' where
  gone := fun t ht hmem => by
    have hold : (s.writers t).gone = true := by
      rcases eq_or_ne t u with rfl | hne
      · exact hgone ht
      · rwa [(h.others t hne).1] at ht
    rcases h.toVisit hmem with hvisit | ⟨rfl,halive⟩
    · exact hsafe.gone t hold hvisit
    · exact absurd_gone halive ht
  no_dangling := by
    rw [h.drain]
    exact hsafe.no_dangling
  left := by
    rw [hleft]
    intro t ht
    obtain ⟨hold,hreg⟩ := hsafe.left t ht
    obtain ⟨hnew,hsame⟩ := h.gone hold
    exact ⟨hnew,hsame.trans hreg⟩

theorem exit_safe (htracked : Tracked s) (h : Safe s) (hmay : MayExit s (.exit t))
    (hstep : exit s t = some s') : Safe s' := by
  obtain ⟨hidle,haside,hregistered,hgone,hleft⟩ := exit_aside hstep
  refine ⟨fun u hu hmem => ?_,by rw [haside.drain]; exact h.no_dangling,fun u hu => ?_⟩
  · rcases haside.toVisit hmem with hvisit | ⟨rfl,halive⟩
    · rcases eq_or_ne u t with rfl | hne
      · cases hreg : s.tRegistered u with
        | true => exact (hmay hreg).2 hvisit
        | false =>
          refine htracked.not_mem_claims (fun entry hpc => ?_) hreg (htracked.toVisit_subset hvisit)
          cases hidle.symm.trans hpc
      · rw [(haside.others u hne).1] at hu
        exact h.gone u hu hvisit
    · exact absurd_gone halive hu
  · have hold (hu : u ∈ s.left) : (s'.writers u).gone = true ∧ s'.tRegistered u = false := by
      obtain ⟨hgone,hreg⟩ := h.left u hu
      exact ⟨(haside.gone hgone).1,by rw [hregistered]; exact hreg⟩
    rw [hleft] at hu
    split_ifs at hu with hrunning
    · rcases List.mem_append.mp hu with hu | hu
      · exact hold hu
      · rw [List.mem_singleton.mp hu,hregistered]
        refine ⟨hgone,?_⟩
        cases hreg : s.tRegistered t with
        | true => exact absurd (hrunning.symm.trans (hmay hreg).1) nofun
        | false => rfl
    · exact hold hu

theorem drainLoop_safe (htracked : Tracked s) (h : Safe s) (hstep : drainLoop s s.drain = some s') :
    Safe s' := by
  obtain ⟨hwriters,hregistered,hleft,-,-,hclaims,-⟩ := drainLoop_frame hstep
  have hold : ∀ t ∈ s'.left, (s'.writers t).gone = true ∧ s'.tRegistered t = false := by
    rw [hleft,hwriters,hregistered]
    exact h.left
  have hsafe (hvisit : s'.toVisit ⊆ s.toVisit) (hno : ∀ buf, s'.drain ≠ .dangling buf) :
      Safe s' := by
    refine ⟨fun t ht hmem => h.gone t ?_ (hvisit hmem),hno,hold⟩
    rwa [hwriters] at ht
  rcases drainLoop_visits hstep with ⟨-,hvisiting,hfinal,hcollecting,hno⟩ |
    ⟨buf,hbuf,hgone,-,-⟩ | ⟨hpc,hpc',-⟩ | ⟨final,buf,hpc,hpc',-,-⟩ | ⟨final,hpc,hpc',-⟩ |
    ⟨final,buf,rest,hpc,-,hpc',-⟩ | ⟨final,hpc,hpc',-⟩
  · refine hsafe ?_ hno
    rw [State.toVisit,State.toVisit,hfinal,hcollecting,hvisiting,hclaims]
    exact List.Subset.refl _
  · exact absurd (htracked.visiting_subset hbuf) (h.gone buf hgone)
  · refine hsafe ?_ (by simp [hpc'])
    simp [State.toVisit,hpc,hpc',hclaims,DrainPc.final,DrainPc.collecting]
  · refine hsafe ?_ (by simp [hpc'])
    simp [State.toVisit,hpc,hpc',hclaims,DrainPc.collecting]
  · refine hsafe ?_ (by simp [hpc'])
    cases final
    · simp [State.toVisit,hpc,hpc',hclaims,DrainPc.final,DrainPc.collecting]
    · have hknown : s.buffers ⊆ s.claims := htracked.buffers
      simpa [State.toVisit,hpc,hpc',hclaims,DrainPc.final,DrainPc.collecting,DrainPc.visiting]
        using hknown
  · refine hsafe ?_ (by simp [hpc'])
    cases final
    · simp [State.toVisit,hpc,hpc',hclaims,DrainPc.final,DrainPc.collecting]
    · simp [State.toVisit,hpc,hpc',DrainPc.final,DrainPc.collecting,DrainPc.visiting]
  · cases final
    · refine hsafe ?_ (by simp [hpc'])
      simp [State.toVisit,hpc,hpc',hclaims,DrainPc.final]
    · refine hsafe ?_ (by simp [hpc'])
      simp [State.toVisit,hpc,hpc',DrainPc.final,DrainPc.collecting,DrainPc.visiting]

theorem step_safe {a : Action ι τ} (htracked : Tracked s) (h : Safe s) (hmay : MayExit s a)
    (hstep : step s a = some s') : Safe s' := by
  cases a with
  | write t args record =>
    obtain ⟨haside,halive,hleft⟩ := write_aside hstep
    exact haside.safe h (absurd_gone halive) hleft
  | access t spurious =>
    obtain ⟨haside,hgone,hleft⟩ := access_aside htracked hstep
    exact haside.safe h (hgone ▸ ·) hleft
  | exit t => exact exit_safe htracked h hmay hstep
  | drain => exact drainLoop_safe htracked h hstep
  | stop =>
    rcases stop_cases hstep with ⟨-,rfl⟩ | ⟨-,-,rfl⟩
    · exact ⟨h.gone,h.no_dangling,h.left⟩
    · exact ⟨h.gone,h.no_dangling,h.left⟩

/-! ### Exits before `Drain::stop` -/

/-- What the last pass does with the buffer of a thread that exited before `Drain::stop` was
called: it has it still ahead, or never knew it. -/
structure Missed (s : State ι τ) : Prop where
  left : ∀ t ∈ s.left, (s.writers t).gone = true
  ahead : s.drain.final = true → s.drain.collecting = false →
    ∀ t ∈ s.left, t ∈ s.buffers → t ∈ s.drain.visiting
  unknown : ∀ t, t ∉ s.buffers → lines t .fast s.taken = []

theorem start_missed : Missed (start : State ι τ) where
  left := nofun
  ahead := nofun
  unknown := fun _ _ => rfl

theorem Aside.missed {u : ι} (h : Aside u s s') (hmissed : Missed s)
    (hleft : ∀ t ∈ s'.left, t ∈ s.left ∨ (s'.writers t).gone = true ∧ s.drain.final = false) :
    Missed s' where
  left := fun t ht => by
    rcases hleft t ht with hold | ⟨hgone,-⟩
    · exact (h.gone (hmissed.left t hold)).1
    · exact hgone
  ahead := by
    rw [h.drain,h.buffers]
    intro hfinal hcollecting t ht hmem
    rcases hleft t ht with hold | ⟨-,hnot⟩
    · exact hmissed.ahead hfinal hcollecting t hold hmem
    · exact absurd (hnot.symm.trans hfinal) nofun
  unknown := by
    rw [h.buffers,State.taken,h.emitted,h.drain]
    exact hmissed.unknown

/-- The drain takes nothing from a buffer that it does not know. -/
theorem drainLoop_unknown (hlogged : Logged s) (htracked : Tracked s) (h : Missed s)
    (hstep : drainLoop s s.drain = some s') (ht : t ∉ s.buffers) :
    lines t .fast s'.taken = [] := by
  have hreach := (step_moves (a := .drain) hstep).2.reachable hlogged.debugQueue
  have hold := h.unknown t ht
  obtain ⟨hwritten,-,hcalls,⟨buf,hbuf,b,halive,hb,-,-,⟨-,htaken⟩ | ⟨v,hpops,htaken⟩⟩ |
    ⟨-,⟨-,htaken⟩ | ⟨v,hpops,htaken⟩⟩⟩ := drainLoop_taken hstep
  · rw [htaken,hold]
  · obtain ⟨hthread,-⟩ := (hlogged.served buf).popped_entry halive hb hpops
    rw [htaken,lines_append,hold,lines_other fun hv => absurd (htracked.visiting buf hbuf) ?_]
    · rfl
    · rwa [← hthread,hv]
  · rw [htaken,hold]
  · have hpath : v.path = .debug := path_of_mem_pops (s := s) hreach
      (fun u => by rw [hcalls]; exact hlogged.calls u) (by rw [hpops]; simp)
    rw [htaken,lines_append,hold,lines_other fun _ => by rw [hpath]; nofun]
    rfl

theorem drainLoop_missed (hlogged : Logged s) (htracked : Tracked s) (h : Missed s)
    (hstep : drainLoop s s.drain = some s') : Missed s' := by
  obtain ⟨hwriters,-,hleft,-⟩ := drainLoop_frame hstep
  have hgone : ∀ t ∈ s'.left, (s'.writers t).gone = true := by
    rw [hleft,hwriters]
    exact h.left
  have hunknown (hgrows : s.buffers ⊆ s'.buffers) (t : ι) (ht : t ∉ s'.buffers) :
      lines t .fast s'.taken = [] :=
    drainLoop_unknown hlogged htracked h hstep fun hmem => ht (hgrows hmem)
  rcases drainLoop_visits hstep with ⟨hbuffers,hvisiting,hfinal,hcollecting,-⟩ |
    ⟨buf,-,-,hpc,hbuffers⟩ | ⟨-,hpc,hbuffers⟩ | ⟨final,buf,-,hpc,hbuffers,-⟩ |
    ⟨final,-,hpc,hbuffers⟩ | ⟨final,buf,rest,hold,halive,hpc,hbuffers⟩ | ⟨final,hold,hpc,hbuffers⟩
  · refine ⟨hgone,?_,hunknown (by rw [hbuffers]; exact List.Subset.refl _)⟩
    rw [hfinal,hcollecting,hleft,hbuffers,hvisiting]
    exact h.ahead
  · exact ⟨hgone,by rw [hpc]; nofun,hunknown (by rw [hbuffers]; exact List.Subset.refl _)⟩
  · exact ⟨hgone,by rw [hpc]; nofun,hunknown (by rw [hbuffers]; exact List.Subset.refl _)⟩
  · exact ⟨hgone,by rw [hpc]; nofun,hunknown (by rw [hbuffers]; exact List.subset_append_left ..)⟩
  · refine ⟨hgone,?_,hunknown (by rw [hbuffers]; exact List.Subset.refl _)⟩
    rw [hpc,hbuffers]
    exact fun _ _ _ _ => id
  · refine ⟨hgone,?_,hunknown (by rw [hbuffers]; exact List.Subset.refl _)⟩
    rw [hpc,hbuffers,hleft]
    intro hfinal _ t ht hmem
    have hahead := h.ahead (by rw [hold]; exact hfinal) (by rw [hold]; rfl) t ht hmem
    rw [hold] at hahead
    rcases List.mem_cons.mp hahead with rfl | hrest
    · exact absurd_gone halive (h.left t ht)
    · exact hrest
  · refine ⟨hgone,?_,hunknown (by rw [hbuffers]; exact List.Subset.refl _)⟩
    rw [hpc,hbuffers,hleft]
    intro hfinal _ t ht hmem
    have hahead := h.ahead (by rw [hold]; cases final <;> [exact hfinal; rfl]) (by rw [hold]; rfl)
      t ht hmem
    rw [hold] at hahead
    cases hahead

theorem step_missed {a : Action ι τ} (hlogged : Logged s) (htracked : Tracked s) (h : Missed s)
    (hstep : step s a = some s') : Missed s' := by
  cases a with
  | write t args record =>
    obtain ⟨haside,-,hleft⟩ := write_aside hstep
    exact haside.missed h fun u hu => .inl (hleft ▸ hu)
  | access t spurious =>
    obtain ⟨haside,-,hleft⟩ := access_aside htracked hstep
    exact haside.missed h fun u hu => .inl (hleft ▸ hu)
  | exit t =>
    obtain ⟨-,haside,-,hgone,hleft⟩ := exit_aside hstep
    refine haside.missed h fun u hu => ?_
    rw [hleft] at hu
    split_ifs at hu with hrunning
    · rcases List.mem_append.mp hu with hu | hu
      · exact .inl hu
      · rw [List.mem_singleton.mp hu]
        refine .inr ⟨hgone,?_⟩
        cases hfinal : s.drain.final with
        | false => rfl
        | true => exact absurd (hrunning.symm.trans (htracked.stopped hfinal)) nofun
    · exact .inl hu
  | drain => exact drainLoop_missed hlogged htracked h hstep
  | stop =>
    rcases stop_cases hstep with ⟨-,rfl⟩ | ⟨-,-,rfl⟩
    · exact ⟨h.left,h.ahead,h.unknown⟩
    · exact ⟨h.left,h.ahead,h.unknown⟩

/-- When `drain_loop` has returned, all that a thread left behind is lost. -/
theorem Missed.lost (h : Missed s) (hlogged : Logged s) (hdrain : s.drain = .returned)
    (ht : t ∈ s.left) {entry : Entry ι τ} (hentry : entry ∈ (s.tBuf t).pushes) :
    entry ∉ s.emitted := by
  intro hmem
  have hnot : t ∉ s.buffers := fun hbuf => by
    have := h.ahead (by rw [hdrain]; rfl) (by rw [hdrain]; rfl) t ht hbuf
    rw [hdrain] at this
    cases this
  obtain ⟨-,hthread,hpath⟩ := (hlogged.served t).mem_pushes hentry
  have hline : entry ∈ lines t .fast s.taken :=
    mem_lines.mpr ⟨List.mem_append_left _ hmem,hthread,hpath⟩
  rw [h.unknown t hnot] at hline
  cases hline

/-! ### Runs -/

theorem reachable_tracked (h : Transition.Reachable step (start : State ι τ) s) :
    Logged s ∧ Tracked s ∧ Missed s := by
  refine h.invariant (P := fun s => Logged s ∧ Tracked s ∧ Missed s)
    ⟨start_logged,start_tracked,start_missed⟩ ?_
  rintro s a s' ⟨hlogged,htracked,hmissed⟩ - hstep
  exact ⟨step_logged hlogged hstep,step_tracked hlogged htracked hstep,
    step_missed hlogged htracked hmissed hstep⟩

/-- A run in which each thread that has a `LogBuffer` exits after `Drain::stop` was called, when
the drain has no more use for the buffer, is survived; and a run at whose end `drain_loop` has
returned is survived only if no thread that had a `LogBuffer` exited before. -/
theorem run_survives {as : List (Action ι τ)} (hrun : Transition.run step start as = some s) :
    (Transition.Admits step MayExit start as → Survives s) ∧
      (s.drain = .returned → (Survives s ↔ ∀ t ∈ s.left, s.tRegistered t = false)) := by
  obtain ⟨hlogged,htracked,hmissed⟩ := reachable_tracked (Transition.Reachable.run .start hrun)
  have hnothing (t : ι) (hreg : s.tRegistered t = false) : ∀ entry ∈ (s.tBuf t).pushes,
      EmittedOnce s entry := by
    rw [((htracked.enrolled t).never hreg).2.1]
    nofun
  refine ⟨fun hadmits => ?_,fun hdrain => ⟨fun h t ht => ?_,fun h => ?_⟩⟩
  · have hsafe : Logged s ∧ Tracked s ∧ Safe s := by
      refine (Transition.ReachableBy.admits .start hadmits hrun).invariant
        (P := fun s => Logged s ∧ Tracked s ∧ Safe s) ⟨start_logged,start_tracked,start_safe⟩ ?_
      rintro s a s' ⟨hlogged,htracked,hsafe⟩ hmay hstep
      exact ⟨step_logged hlogged hstep,step_tracked hlogged htracked hstep,
        step_safe htracked hsafe hmay hstep⟩
    exact ⟨hsafe.2.2.no_dangling,fun _ t ht => hnothing t (hsafe.2.2.left t ht).2⟩
  · cases hreg : s.tRegistered t with
    | false => rfl
    | true =>
      have hgone := hmissed.left t ht
      have hpushed := (htracked.enrolled t).pushed hreg fun entry hpc => by
        rw [hpc] at hgone
        cases hgone
      obtain ⟨entry,hentry⟩ := List.exists_mem_of_ne_nil _ hpushed
      obtain ⟨i,hi,-⟩ := h.emitted_once hdrain t ht entry hentry
      exact absurd (List.mem_of_getElem? hi) (hmissed.lost hlogged hdrain ht hentry)
  · exact ⟨by rw [hdrain]; nofun,fun _ t ht => hnothing t (h t ht)⟩

/-- One thread writes by the debug path and exits, the other by the fast path; the drain emits
both lines and is stopped, and the other thread exits behind it. -/
def orderly : List (Action Bool ℕ) :=
  .write false aString 7 :: (List.replicate 6 (.access false false) ++
    .exit false :: .write true anInt 8 :: (List.replicate 11 (.access true false) ++
      (List.replicate 33 .drain ++ .stop :: (List.replicate 11 .drain ++
        [.stop,.exit true,.access true false,.access true false]))))

theorem run_survives_orderly : ∃ s : State Bool ℕ,
    Transition.run step start orderly = some s ∧ s.left = [false] ∧
    s.emitted = [⟨true,1,.fast,8⟩,⟨false,0,.debug,7⟩] ∧ s.stopper = .returned ∧ Survives s := by
  obtain ⟨s,hrun,hleft,hemitted,hstopper⟩ : ∃ s : State Bool ℕ,
      Transition.run step start orderly = some s ∧ s.left = [false] ∧
      s.emitted = [⟨true,1,.fast,8⟩,⟨false,0,.debug,7⟩] ∧ s.stopper = .returned :=
    ⟨_,rfl,rfl,rfl,rfl⟩
  exact ⟨s,hrun,hleft,hemitted,hstopper,(run_survives hrun).1 (by decide +kernel)⟩

/-- A thread writes a line and exits; its destructor pops the line. One pass of the drain. -/
def shortLived : List (Action Unit ℕ) :=
  .write () anInt 8 :: (List.replicate 11 (.access () false) ++
    .exit () :: (List.replicate 7 (.access () false) ++ List.replicate 12 .drain))

/-- The drain accesses the buffer of the thread, and the line is lost. -/
theorem exit_leaves_dangling : ∃ s : State Unit ℕ,
    Transition.run step start shortLived = some s ∧ s.gRunning = true ∧
    s.writers () = .exited ∧ s.drain = .dangling () ∧
    (s.tBuf ()).pushes = [⟨(),0,.fast,8⟩] ∧ s.emitted = [] :=
  ⟨_,rfl,rfl,rfl,rfl,rfl,rfl⟩

end LogDrain
end Marketlib
