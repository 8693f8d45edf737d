import Marketlib.LogDrain

/-! The order in which a thread's lines come out. What it writes by one path stays in order;
writes by different paths overtake each other. -/

namespace Marketlib
namespace LogDrain

variable {ι τ : Type}

/-- The buffers that the present pass has still to visit. -/
def DrainPc.visiting {σ : Type} : DrainPc ι σ → List ι
  | .visit _ rest => rest
  | .popping _ buf rest => buf :: rest
  | .emitting _ buf rest _ => buf :: rest
  | _ => []

/-- The records that `drain_loop` holds. -/
def DrainPc.hand {σ : Type} : DrainPc ι σ → List σ
  | .emitting _ _ _ entry => [entry]
  | .debugEmitting _ entry => [entry]
  | _ => []

/-- The records that `drain_loop` has popped. -/
def State.taken (s : State ι τ) : List (Entry ι τ) := s.emitted ++ s.drain.hand

/-- The record of the write that a thread is in, before it is in the thread's queue. -/
def WriterPc.pending {σ : Type} : WriterPc σ → List σ
  | .registering entry => [entry]
  | .pushing entry => [entry]
  | _ => []

variable [DecidableEq ι]

/-- Of some records those that one thread wrote by one path. -/
def lines (t : ι) (path : Path) (entries : List (Entry ι τ)) : List (Entry ι τ) :=
  entries.filter fun entry => entry.thread = t ∧ entry.path = path

theorem lines_append (t : ι) (path : Path) (xs ys : List (Entry ι τ)) :
    lines t path (xs ++ ys) = lines t path xs ++ lines t path ys := List.filter_append ..

theorem lines_self {t : ι} {path : Path} {entry : Entry ι τ} (ht : entry.thread = t)
    (hpath : entry.path = path) : lines t path [entry] = [entry] := by
  simp [lines,ht,hpath]

theorem lines_other {t : ι} {path : Path} {entry : Entry ι τ}
    (h : entry.thread = t → entry.path ≠ path) : lines t path [entry] = [] := by
  simpa [lines] using h

theorem mem_lines {t : ι} {path : Path} {entries : List (Entry ι τ)} {entry : Entry ι τ} :
    entry ∈ lines t path entries ↔ entry ∈ entries ∧ entry.thread = t ∧ entry.path = path := by
  simp [lines]

variable {s s' : State ι τ} {t : ι}

/-- What `drain_loop` pops in one step, from a buffer or from the debug queue. -/
theorem drainLoop_taken (h : drainLoop s s.drain = some s') :
    s'.written = s.written ∧ s'.writers = s.writers ∧
    s'.debugQueue.calls = s.debugQueue.calls ∧
    ((∃ buf ∈ s.drain.visiting, ∃ b, (s.writers buf).gone = false ∧
      (SpscQueue.step (s.tBuf buf) .callPop = some b ∨
        SpscQueue.step (s.tBuf buf) .pop = some b) ∧
      s'.tBuf = Function.update s.tBuf buf b ∧ s'.debugQueue = s.debugQueue ∧
      (b.pops = (s.tBuf buf).pops ∧ s'.taken = s.taken ∨
        ∃ v, b.pops = (s.tBuf buf).pops ++ [v] ∧ s'.taken = s.taken ++ [v])) ∨
    s'.tBuf = s.tBuf ∧ (s'.debugQueue.pops = s.debugQueue.pops ∧ s'.taken = s.taken ∨
      ∃ v, s'.debugQueue.pops = s.debugQueue.pops ++ [v] ∧ s'.taken = s.taken ++ [v])) := by
  rcases drainLoop_cases h with ⟨hpc,rfl⟩ | ⟨final,q,hpc,hq,rfl⟩ |
    ⟨final,q,hpc,hq,⟨buf,-,rfl⟩ | ⟨-,rfl⟩ | ⟨-,rfl⟩⟩ | ⟨final,hpc,rfl⟩ |
    ⟨final,buf,rest,hpc,-,rfl⟩ | ⟨final,buf,rest,b,hpc,hgone,hb,rfl⟩ |
    ⟨final,buf,rest,b,hpc,hgone,hb,⟨entry,hret,rfl⟩ | ⟨hret,rfl⟩ | ⟨hret,rfl⟩⟩ |
    ⟨final,buf,rest,entry,hpc,rfl⟩ | ⟨final,q,hpc,hq,rfl⟩ |
    ⟨final,q,hpc,hq,⟨entry,hret,rfl⟩ | ⟨hret,rfl⟩ | ⟨hret,rfl⟩⟩ | ⟨final,entry,hpc,rfl⟩
  · exact ⟨rfl,rfl,rfl,.inr ⟨rfl,.inl ⟨rfl,by simp [State.taken,hpc,DrainPc.hand]⟩⟩⟩
  · exact ⟨rfl,rfl,rfl,.inr ⟨rfl,.inl ⟨rfl,by simp [State.taken,hpc,DrainPc.hand]⟩⟩⟩
  · exact ⟨rfl,rfl,rfl,.inr ⟨rfl,.inl ⟨rfl,by simp [State.taken,hpc,DrainPc.hand]⟩⟩⟩
  · exact ⟨rfl,rfl,rfl,.inr ⟨rfl,.inl ⟨rfl,by simp [State.taken,hpc,DrainPc.hand]⟩⟩⟩
  · exact ⟨rfl,rfl,rfl,.inr ⟨rfl,.inl ⟨rfl,by simp [State.taken,hpc,DrainPc.hand]⟩⟩⟩
  · exact ⟨rfl,rfl,rfl,.inr ⟨rfl,.inl ⟨rfl,by simp [State.taken,hpc,DrainPc.hand]⟩⟩⟩
  · refine ⟨rfl,rfl,rfl,.inr ⟨rfl,.inl ⟨rfl,?_⟩⟩⟩
    rcases hpc with hpc | hpc <;> simp [State.taken,hpc,DrainPc.hand]
  · obtain ⟨-,rfl⟩ := SpscQueue.callPop_cases hb
    exact ⟨rfl,rfl,rfl,.inl ⟨buf,by simp [hpc,DrainPc.visiting],_,hgone,.inl hb,rfl,rfl,
      .inl ⟨rfl,by simp [State.taken,hpc,DrainPc.hand]⟩⟩⟩
  · refine ⟨rfl,rfl,rfl,.inl ⟨buf,by simp [hpc,DrainPc.visiting],b,hgone,.inr hb,rfl,rfl,?_⟩⟩
    obtain ⟨-,-,⟨v,hv,hpops⟩ | ⟨hv,-⟩⟩ := SpscQueue.step_pop_value hb
    · cases hret.symm.trans hv
      exact .inr ⟨entry,hpops,by simp [State.taken,hpc,DrainPc.hand]⟩
    · exact absurd hret (hv entry)
  · refine ⟨rfl,rfl,rfl,.inl ⟨buf,by simp [hpc,DrainPc.visiting],b,hgone,.inr hb,rfl,rfl,?_⟩⟩
    obtain ⟨-,-,⟨v,hv,-⟩ | ⟨-,hpops⟩⟩ := SpscQueue.step_pop_value hb
    · cases hret.symm.trans hv
    · exact .inl ⟨hpops,by simp [State.taken,hpc,DrainPc.hand]⟩
  · refine ⟨rfl,rfl,rfl,.inl ⟨buf,by simp [hpc,DrainPc.visiting],b,hgone,.inr hb,rfl,rfl,?_⟩⟩
    obtain ⟨-,-,⟨v,hv,-⟩ | ⟨-,hpops⟩⟩ := SpscQueue.step_pop_value hb
    · exact absurd hv (hret _)
    · exact .inl ⟨hpops,rfl⟩
  · exact ⟨rfl,rfl,rfl,.inr ⟨rfl,.inl ⟨rfl,by simp [State.taken,hpc,DrainPc.hand]⟩⟩⟩
  · cases MpscQueue.tryPop_call hq
    exact ⟨rfl,rfl,rfl,.inr ⟨rfl,.inl ⟨rfl,by simp [State.taken,hpc,DrainPc.hand]⟩⟩⟩
  · refine ⟨rfl,rfl,(MpscQueue.tryPop_frame hq).2.2.2,.inr ⟨rfl,?_⟩⟩
    rcases MpscQueue.tryPop_pops hq with ⟨v,hv,hpops⟩ | ⟨hv,-⟩
    · cases hret.symm.trans hv
      exact .inr ⟨entry,hpops,by simp [State.taken,hpc,DrainPc.hand]⟩
    · exact absurd hret (hv entry)
  · refine ⟨rfl,rfl,(MpscQueue.tryPop_frame hq).2.2.2,.inr ⟨rfl,?_⟩⟩
    rcases MpscQueue.tryPop_pops hq with ⟨v,hv,-⟩ | ⟨-,hpops⟩
    · cases hret.symm.trans hv
    · refine .inl ⟨hpops,?_⟩
      cases final <;> simp [State.taken,hpc,DrainPc.hand]
  · refine ⟨rfl,rfl,(MpscQueue.tryPop_frame hq).2.2.2,.inr ⟨rfl,?_⟩⟩
    rcases MpscQueue.tryPop_pops hq with ⟨v,hv,-⟩ | ⟨-,hpops⟩
    · exact absurd hv (hret _)
    · exact .inl ⟨hpops,rfl⟩
  · exact ⟨rfl,rfl,rfl,.inr ⟨rfl,.inl ⟨rfl,by simp [State.taken,hpc,DrainPc.hand]⟩⟩⟩

/-! ### The invariant -/

/-- What becomes of the fast writes of thread `t`. -/
structure Served (s : State ι τ) (t : ι) : Prop where
  pushed : ((s.tBuf t).pushes ++ (s.writers t).pending).Sublist (lines t .fast s.written)
  pushing : ∀ entry, s.writers t = .pushing entry → (s.tBuf t).pusher.value = some entry
  popped : lines t .fast s.taken <+: (s.tBuf t).pushes
  /-- Until the destructor takes over. -/
  buffer : (s.writers t).gone = false →
    SpscQueue.Inv (s.tBuf t) ∧ lines t .fast s.taken = (s.tBuf t).pops

structure Logged (s : State ι τ) : Prop where
  numbered : s.written.Pairwise fun x y => x.number < y.number
  counted : ∀ entry ∈ s.written, entry.number < s.written.length
  debugQueue : Transition.Reachable MpscQueue.step MpscQueue.start s.debugQueue
  calls : ∀ t, s.debugQueue.calls t = lines t .debug s.written
  served : ∀ t, Served s t
  debugPopped : s.taken.filter (fun entry => entry.path = .debug) = s.debugQueue.pops

theorem start_served (t : ι) : Served (start : State ι τ) t where
  pushed := List.Sublist.refl _
  pushing := nofun
  popped := List.prefix_rfl
  buffer := fun _ => ⟨SpscQueue.start_inv,rfl⟩

theorem start_logged : Logged (start : State ι τ) where
  numbered := List.Pairwise.nil
  counted := nofun
  debugQueue := .start
  calls := fun _ => rfl
  served := start_served
  debugPopped := rfl

/-- Nothing of the thread was touched. -/
theorem Served.frame (h : Served s t) (htBuf : s'.tBuf t = s.tBuf t)
    (hwriter : s'.writers t = s.writers t)
    (hwritten : lines t .fast s'.written = lines t .fast s.written)
    (htaken : lines t .fast s'.taken = lines t .fast s.taken) : Served s' t where
  pushed := by
    rw [htBuf,hwriter,hwritten]
    exact h.pushed
  pushing := by
    rw [htBuf,hwriter]
    exact h.pushing
  popped := by
    rw [htBuf,htaken]
    exact h.popped
  buffer := by
    rw [htBuf,hwriter,htaken]
    exact h.buffer

/-- What is in a thread's buffer the thread wrote by the fast path. -/
theorem Served.mem_pushes (h : Served s t) {entry : Entry ι τ}
    (hmem : entry ∈ (s.tBuf t).pushes) :
    entry ∈ s.written ∧ entry.thread = t ∧ entry.path = .fast :=
  mem_lines.mp (h.pushed.subset (List.mem_append_left _ hmem))

/-- What comes out of the debug queue was written by the debug path. -/
theorem path_of_mem_pops {q : MpscQueue.State debugCapacity ι (Entry ι τ)}
    (hreach : Transition.Reachable MpscQueue.step MpscQueue.start q)
    (hcalls : ∀ t, q.calls t = lines t .debug s.written) {entry : Entry ι τ}
    (hmem : entry ∈ q.pops) : entry.path = .debug := by
  obtain ⟨⟨t,x⟩,hclaim,rfl⟩ := List.mem_map.mp ((MpscQueue.reachable_held hreach).pops entry hmem)
  have hcall := MpscQueue.calls_of_mem_pushes hreach hclaim
  rw [hcalls] at hcall
  exact (mem_lines.mp hcall).2.2

theorem Logged.append (h : Logged s) {entry : Entry ι τ}
    (hnumber : entry.number = s.written.length) :
    (s.written ++ [entry]).Pairwise (fun x y => x.number < y.number) ∧
      ∀ x ∈ s.written ++ [entry], x.number < (s.written ++ [entry]).length := by
  have hlt : ∀ x ∈ s.written, x.number < entry.number := fun x hx => by
    rw [hnumber]
    exact h.counted x hx
  refine ⟨List.pairwise_append.mpr ⟨h.numbered,List.pairwise_singleton ..,fun x hx y hy => ?_⟩,?_⟩
  · rw [List.mem_singleton.mp hy]
    exact hlt x hx
  · intro x hx
    rw [List.length_append,List.length_singleton]
    rcases List.mem_append.mp hx with hx | hx
    · have := h.counted x hx
      omega
    · rw [List.mem_singleton.mp hx]
      omega

/-- The call of `try_push` on the thread's own queue. -/
theorem Served.callPush (h : Served s t) {entry : Entry ι τ} {b}
    (halive : (s.writers t).gone = false)
    (hb : SpscQueue.step (s.tBuf t) (.callPush entry) = some b) (htBuf : s'.tBuf t = b)
    (hwriter : s'.writers t = .pushing entry) (htaken : s'.taken = s.taken)
    (hpushed : ((s.tBuf t).pushes ++ [entry]).Sublist (lines t .fast s'.written)) :
    Served s' t := by
  obtain ⟨hinv,hpops⟩ := h.buffer halive
  have hinv' := SpscQueue.step_inv hinv hb
  obtain ⟨-,rfl⟩ := SpscQueue.callPush_cases hb
  exact {
    pushed := by
      rw [htBuf,hwriter]
      exact hpushed
    pushing := fun x hx => by
      cases hwriter.symm.trans hx
      rw [htBuf]
      rfl
    popped := by
      rw [htBuf,htaken]
      exact h.popped
    buffer := fun _ => by
      rw [htBuf,htaken]
      exact ⟨hinv',hpops⟩ }

/-- The thread goes elsewhere, with its queue as it was for the drain. -/
theorem Served.setWriter (h : Served s t) {pc : WriterPc (Entry ι τ)}
    (hwriter : s'.writers t = pc) (hpc : ∀ entry, pc ≠ .pushing entry)
    (hpushes : (s'.tBuf t).pushes = (s.tBuf t).pushes) (htaken : s'.taken = s.taken)
    (hpushed : ((s.tBuf t).pushes ++ pc.pending).Sublist (lines t .fast s'.written))
    (hbuffer : pc.gone = false → (s.writers t).gone = false ∧ s'.tBuf t = s.tBuf t) :
    Served s' t where
  pushed := by
    rw [hpushes,hwriter]
    exact hpushed
  pushing := fun entry hentry => absurd (hwriter.symm.trans hentry) (hpc entry)
  popped := by
    rw [hpushes,htaken]
    exact h.popped
  buffer := fun halive => by
    rw [hwriter] at halive
    obtain ⟨hold,htBuf⟩ := hbuffer halive
    rw [htBuf,htaken]
    exact h.buffer hold

theorem write_logged {args : ArgTypes} {record : τ} (h : Logged s)
    (hstep : write s t args record = some s') : Logged s' := by
  have hreach := (step_moves (a := .write t args record) hstep).2.reachable h.debugQueue
  obtain ⟨hidle,entry,hentry,hcases⟩ := write_cases hstep
  have hthread : entry.thread = t := by rw [hentry]
  have hpath : entry.path = args.path := by rw [hentry]
  have hnumber : entry.number = s.written.length := by rw [hentry]
  obtain ⟨hnumbered,hcounted⟩ := h.append hnumber
  have hother (u : ι) (path : Path) (hne : u = t → path ≠ args.path) :
      lines u path (s.written ++ [entry]) = lines u path s.written := by
    rw [lines_append,lines_other fun hu => ?_,List.append_nil]
    rw [hpath]
    exact (hne (hu.symm.trans hthread)).symm
  have hown : lines t args.path (s.written ++ [entry]) = lines t args.path s.written ++ [entry] := by
    rw [lines_append,lines_self hthread hpath]
  have hpushed := (h.served t).pushed
  rw [hidle] at hpushed
  have hnext : args.path = .fast →
      ((s.tBuf t).pushes ++ [entry]).Sublist (lines t .fast (s.written ++ [entry])) := by
    intro hfast
    rw [← hfast,hown,hfast]
    exact ((List.append_nil _).symm ▸ hpushed).append (.refl _)
  rcases hcases with ⟨b,hfast,-,hb,rfl⟩ | ⟨q,hfast,-,-,rfl⟩ | ⟨q,hdebug,hq,rfl⟩
  · refine ⟨hnumbered,hcounted,hreach,fun u => ?_,fun u => ?_,h.debugPopped⟩
    · rw [h.calls u,hother u .debug fun _ => by rw [hfast]; nofun]
    · rcases eq_or_ne u t with rfl | hne
      · exact (h.served u).callPush (by rw [hidle]; rfl) hb (Function.update_self ..)
          (Function.update_self ..) rfl (hnext hfast)
      · exact (h.served u).frame (Function.update_of_ne hne ..) (Function.update_of_ne hne ..)
          (hother u .fast fun hu => absurd hu hne) rfl
  · refine ⟨hnumbered,hcounted,hreach,fun u => ?_,fun u => ?_,h.debugPopped⟩
    · rw [h.calls u,hother u .debug fun _ => by rw [hfast]; nofun]
    · rcases eq_or_ne u t with rfl | hne
      · exact (h.served u).setWriter (Function.update_self ..) nofun rfl rfl (hnext hfast)
          fun _ => ⟨by rw [hidle]; rfl,rfl⟩
      · exact (h.served u).frame rfl (Function.update_of_ne hne ..)
          (hother u .fast fun hu => absurd hu hne) rfl
  · have hcalls : q.calls = Function.update s.debugQueue.calls t (s.debugQueue.calls t ++ [entry]) := by
      rw [MpscQueue.step_call hq]
    have hpops : q.pops = s.debugQueue.pops := by rw [MpscQueue.step_call hq]
    refine ⟨hnumbered,hcounted,hreach,fun u => ?_,fun u => ?_,h.debugPopped.trans hpops.symm⟩
    · change q.calls u = _
      rcases eq_or_ne u t with rfl | hne
      · rw [hcalls,Function.update_self,h.calls u,← hdebug,hown]
      · rw [hcalls,Function.update_of_ne hne,h.calls u,hother u .debug fun hu => absurd hu hne]
    · rcases eq_or_ne u t with rfl | hne
      · exact (h.served u).setWriter (Function.update_self ..) nofun rfl rfl
          (hpushed.trans ((List.sublist_append_left ..).filter _))
          fun _ => ⟨by rw [hidle]; rfl,rfl⟩
      · exact (h.served u).frame rfl (Function.update_of_ne hne ..)
          (hother u .fast fun hu => absurd hu hne) rfl

/-- A step of a thread that writes nothing new and is not the drain's. -/
theorem Logged.own (h : Logged s) (hreach : Transition.Reachable MpscQueue.step MpscQueue.start
      s'.debugQueue) (hwritten : s'.written = s.written) (htaken : s'.taken = s.taken)
    (hcalls : s'.debugQueue.calls = s.debugQueue.calls)
    (hpops : s'.debugQueue.pops = s.debugQueue.pops)
    (hothers : ∀ u, u ≠ t → s'.tBuf u = s.tBuf u ∧ s'.writers u = s.writers u)
    (hown : Served s' t) : Logged s' where
  numbered := by
    rw [hwritten]
    exact h.numbered
  counted := by
    rw [hwritten]
    exact h.counted
  debugQueue := hreach
  calls := by
    rw [hcalls,hwritten]
    exact h.calls
  served := fun u => by
    rcases eq_or_ne u t with rfl | hne
    · exact hown
    · exact (h.served u).frame (hothers u hne).1 (hothers u hne).2 (by rw [hwritten])
        (by rw [htaken])
  debugPopped := by
    rw [htaken,hpops]
    exact h.debugPopped

/-- An access inside `try_push` on the thread's own queue. -/
theorem Served.push (h : Served s t) {entry : Entry ι τ} {b}
    (hpc : s.writers t = .pushing entry) (hb : SpscQueue.step (s.tBuf t) .push = some b)
    (htBuf : s'.tBuf t = b) (hwritten : s'.written = s.written) (htaken : s'.taken = s.taken)
    (hwriter : (∃ ok, b.pusher = .returned ok) ∧ s'.writers t = .idle ∨
      (∀ ok, b.pusher ≠ .returned ok) ∧ s'.writers t = .pushing entry) : Served s' t := by
  obtain ⟨hinv,htakenPops⟩ := h.buffer (by rw [hpc]; rfl)
  have hpushed := h.pushed
  rw [hpc] at hpushed
  obtain ⟨hpops,-,v,hv,hcases⟩ := SpscQueue.step_push_value hb
  cases (h.pushing entry hpc).symm.trans hv
  have hgrows : (s.tBuf t).pushes <+: b.pushes := by
    rcases hcases with ⟨hsame,-⟩ | ⟨hgrow,-⟩ | ⟨hsame,-⟩
    · rw [hsame]
    · rw [hgrow]
      exact List.prefix_append ..
    · rw [hsame]
  have hsub : (b.pushes ++ (s'.writers t).pending).Sublist ((s.tBuf t).pushes ++ [entry]) := by
    rcases hwriter with ⟨⟨ok,hret⟩,hidle⟩ | ⟨hret,hsame⟩
    · rw [hidle,show (WriterPc.idle : WriterPc (Entry ι τ)).pending = [] from rfl,List.append_nil]
      rcases hcases with ⟨hpushes,-⟩ | ⟨hpushes,-⟩ | ⟨hpushes,-⟩ <;> rw [hpushes]
      · exact List.sublist_append_left ..
      · exact List.sublist_append_left ..
    · rw [hsame]
      rcases hcases with ⟨hpushes,-⟩ | ⟨-,hnow⟩ | ⟨-,hnow⟩
      · rw [hpushes]
        exact .refl _
      · exact absurd hnow (hret _)
      · exact absurd hnow (hret _)
  exact {
    pushed := by
      rw [htBuf,hwritten]
      exact hsub.trans hpushed
    pushing := fun x hx => by
      rcases hwriter with ⟨-,hidle⟩ | ⟨hret,hsame⟩
      · cases hidle.symm.trans hx
      · cases hsame.symm.trans hx
        rw [htBuf]
        rcases hcases with ⟨-,hvalue⟩ | ⟨-,hnow⟩ | ⟨-,hnow⟩
        · exact hvalue
        · exact absurd hnow (hret _)
        · exact absurd hnow (hret _)
    popped := by
      rw [htBuf,htaken]
      exact h.popped.trans hgrows
    buffer := fun _ => by
      rw [htBuf,htaken,hpops]
      exact ⟨SpscQueue.step_inv hinv hb,htakenPops⟩ }

theorem access_logged {spurious : Bool} (h : Logged s)
    (hstep : access s t spurious (s.writers t) = some s') : Logged s' := by
  have hreach := (step_moves (a := .access t spurious) hstep).2.reachable h.debugQueue
  have hserved := h.served t
  have hpushed := hserved.pushed
  rcases access_cases hstep with ⟨entry,a,q,hpc,-,-,⟨b,hb,rfl⟩ | rfl⟩ |
    ⟨entry,b,hpc,hb,⟨ok,hret,rfl⟩ | ⟨hret,rfl⟩⟩ | ⟨entry,a,q,hpc,ha,hq,rfl | rfl⟩ |
    ⟨b,pc,hpc,hpushes,hgone,rfl⟩ <;> rw [hpc] at hpushed
  · refine h.own (t := t) hreach rfl rfl rfl rfl
      (fun u hu => ⟨Function.update_of_ne hu ..,Function.update_of_ne hu ..⟩) ?_
    exact hserved.callPush (by rw [hpc]; rfl) hb (Function.update_self ..)
      (Function.update_self ..) rfl hpushed
  · exact h.own (t := t) hreach rfl rfl rfl rfl (fun u _ => ⟨rfl,rfl⟩) (hserved.frame rfl rfl rfl rfl)
  · refine h.own (t := t) hreach rfl rfl rfl rfl
      (fun u hu => ⟨Function.update_of_ne hu ..,Function.update_of_ne hu ..⟩) ?_
    exact hserved.push hpc hb (Function.update_self ..) rfl rfl
      (.inl ⟨⟨ok,hret⟩,Function.update_self ..⟩)
  · refine h.own (t := t) hreach rfl rfl rfl rfl (fun u hu => ⟨Function.update_of_ne hu ..,rfl⟩) ?_
    exact hserved.push hpc hb (Function.update_self ..) rfl rfl (.inr ⟨hret,hpc⟩)
  · obtain ⟨hcalls,hpops,-⟩ := MpscQueue.step_inCall ha hq
    refine h.own (t := t) hreach rfl rfl hcalls hpops
      (fun u hu => ⟨rfl,Function.update_of_ne hu ..⟩) ?_
    exact hserved.setWriter (Function.update_self ..) nofun rfl rfl hpushed
      fun _ => ⟨by rw [hpc]; rfl,rfl⟩
  · obtain ⟨hcalls,hpops,-⟩ := MpscQueue.step_inCall ha hq
    exact h.own (t := t) hreach rfl rfl hcalls hpops (fun u _ => ⟨rfl,rfl⟩)
      (hserved.frame rfl rfl rfl rfl)
  · refine h.own (t := t) hreach rfl rfl rfl rfl
      (fun u hu => ⟨Function.update_of_ne hu ..,Function.update_of_ne hu ..⟩) ?_
    refine hserved.setWriter (Function.update_self ..) ?_ ?_ rfl ?_ ?_
    · rcases hgone with rfl | rfl <;> nofun
    · exact (congrArg _ (Function.update_self ..)).trans hpushes
    · rcases hgone with rfl | rfl <;> exact hpushed
    · rcases hgone with rfl | rfl <;> nofun

theorem exit_logged (h : Logged s) (hstep : exit s t = some s') : Logged s' := by
  have hserved := h.served t
  have hpushed := hserved.pushed
  obtain ⟨hidle,pc,b,hpushes,hpc,rfl⟩ := exit_cases hstep
  rw [hidle] at hpushed
  refine h.own (t := t) h.debugQueue rfl rfl rfl rfl
    (fun u hu => ⟨Function.update_of_ne hu ..,Function.update_of_ne hu ..⟩) ?_
  refine hserved.setWriter (Function.update_self ..) ?_ ?_ rfl ?_ ?_
  · rcases hpc with ⟨-,rfl⟩ | ⟨-,rfl⟩ <;> nofun
  · exact (congrArg _ (Function.update_self ..)).trans hpushes
  · rcases hpc with ⟨-,rfl⟩ | ⟨-,rfl⟩ <;> exact hpushed
  · rcases hpc with ⟨-,rfl⟩ | ⟨-,rfl⟩ <;> nofun

/-- The steps of the consumer of a buffer. -/
theorem Served.pop (h : Served s t) {b} (halive : (s.writers t).gone = false)
    (hb : SpscQueue.step (s.tBuf t) .callPop = some b ∨ SpscQueue.step (s.tBuf t) .pop = some b)
    (htBuf : s'.tBuf t = b) (hwriters : s'.writers = s.writers)
    (hwritten : s'.written = s.written) (hlines : lines t .fast s'.taken = b.pops) :
    Served s' t := by
  obtain ⟨hinv,-⟩ := h.buffer halive
  have hinv' : SpscQueue.Inv b := hb.elim (SpscQueue.step_inv hinv) (SpscQueue.step_inv hinv)
  obtain ⟨hpushes,hpusher⟩ : b.pushes = (s.tBuf t).pushes ∧ b.pusher = (s.tBuf t).pusher := by
    rcases hb with hb | hb
    · obtain ⟨-,rfl⟩ := SpscQueue.callPop_cases hb
      exact ⟨rfl,rfl⟩
    · obtain ⟨hpushes,hpusher,-⟩ := SpscQueue.step_pop_value hb
      exact ⟨hpushes,hpusher⟩
  exact {
    pushed := by
      rw [htBuf,hwriters,hwritten,hpushes]
      exact h.pushed
    pushing := by
      rw [htBuf,hwriters,hpusher]
      exact h.pushing
    popped := by
      rw [htBuf,hlines]
      exact hinv'.fifo
    buffer := fun _ => by
      rw [htBuf,hlines]
      exact ⟨hinv',rfl⟩ }

/-- What is popped from a buffer the thread of the buffer wrote by the fast path. -/
theorem Served.popped_entry (h : Served s t) {b} (halive : (s.writers t).gone = false)
    (hb : SpscQueue.step (s.tBuf t) .callPop = some b ∨ SpscQueue.step (s.tBuf t) .pop = some b)
    {entry : Entry ι τ} (hpops : b.pops = (s.tBuf t).pops ++ [entry]) :
    entry.thread = t ∧ entry.path = .fast := by
  obtain ⟨hinv,-⟩ := h.buffer halive
  have hfifo := (hb.elim (SpscQueue.step_inv hinv) (SpscQueue.step_inv hinv)).fifo
  have hin : entry ∈ b.pushes := hfifo.subset (by rw [hpops]; simp)
  have hpushes : b.pushes = (s.tBuf t).pushes := by
    rcases hb with hb | hb
    · obtain ⟨-,rfl⟩ := SpscQueue.callPop_cases hb
      rfl
    · exact (SpscQueue.step_pop_value hb).1
  rw [hpushes] at hin
  exact (h.mem_pushes hin).2

theorem drainLoop_logged (h : Logged s) (hstep : drainLoop s s.drain = some s') : Logged s' := by
  have hreach := (step_moves (a := .drain) hstep).2.reachable h.debugQueue
  obtain ⟨hwritten,hwriters,hcalls,hpop⟩ := drainLoop_taken hstep
  have hcalls' : ∀ t, s'.debugQueue.calls t = lines t .debug s'.written := fun t => by
    rw [hcalls,hwritten]
    exact h.calls t
  have hframe (u : ι) (htBuf : s'.tBuf u = s.tBuf u)
      (htaken : lines u .fast s'.taken = lines u .fast s.taken) : Served s' u :=
    (h.served u).frame htBuf (by rw [hwriters]) (by rw [hwritten]) htaken
  have hserved : (∀ u, Served s' u) ∧
      s'.taken.filter (fun entry => entry.path = .debug) = s'.debugQueue.pops := by
    rcases hpop with ⟨buf,-,b,halive,hb,htBuf,hdebug,hpop⟩ |
      ⟨htBuf,⟨hpops,htaken⟩ | ⟨v,hpops,htaken⟩⟩
    · have htBuf' : s'.tBuf buf = b := by rw [htBuf,Function.update_self]
      have hold := ((h.served buf).buffer halive).2
      rcases hpop with ⟨hpops,htaken⟩ | ⟨v,hpops,htaken⟩
      · refine ⟨fun u => ?_,by rw [htaken,hdebug]; exact h.debugPopped⟩
        rcases eq_or_ne u buf with rfl | hne
        · exact (h.served u).pop halive hb htBuf' hwriters hwritten (by rw [htaken,hold,hpops])
        · exact hframe u (by rw [htBuf,Function.update_of_ne hne]) (by rw [htaken])
      · obtain ⟨hthread,hpath⟩ := (h.served buf).popped_entry halive hb hpops
        refine ⟨fun u => ?_,?_⟩
        · rcases eq_or_ne u buf with rfl | hne
          · refine (h.served u).pop halive hb htBuf' hwriters hwritten ?_
            rw [htaken,lines_append,lines_self hthread hpath,hold,hpops]
          · refine hframe u (by rw [htBuf,Function.update_of_ne hne]) ?_
            rw [htaken,lines_append,lines_other fun hu => absurd (hu.symm.trans hthread) hne,
              List.append_nil]
        · rw [htaken,List.filter_append,h.debugPopped,hdebug]
          simp [hpath]
    · exact ⟨fun u => hframe u (by rw [htBuf]) (by rw [htaken]),by
        rw [htaken,hpops]
        exact h.debugPopped⟩
    · have hpath : v.path = .debug := path_of_mem_pops hreach hcalls' (by rw [hpops]; simp)
      refine ⟨fun u => hframe u (by rw [htBuf]) ?_,?_⟩
      · rw [htaken,lines_append,lines_other fun _ => by rw [hpath]; nofun,List.append_nil]
      · rw [htaken,List.filter_append,h.debugPopped,hpops]
        simp [hpath]
  exact {
    numbered := by
      rw [hwritten]
      exact h.numbered
    counted := by
      rw [hwritten]
      exact h.counted
    debugQueue := hreach
    calls := hcalls'
    served := hserved.1
    debugPopped := hserved.2 }

theorem step_logged {a : Action ι τ} (h : Logged s) (hstep : step s a = some s') : Logged s' := by
  cases a with
  | write t args record => exact write_logged h hstep
  | access t spurious => exact access_logged h hstep
  | exit t => exact exit_logged h hstep
  | drain => exact drainLoop_logged h hstep
  | stop =>
    rcases stop_cases hstep with ⟨-,rfl⟩ | ⟨-,-,rfl⟩
    · exact ⟨h.numbered,h.counted,h.debugQueue,h.calls,
        fun u => (h.served u).frame rfl rfl rfl rfl,h.debugPopped⟩
    · exact ⟨h.numbered,h.counted,h.debugQueue,h.calls,
        fun u => (h.served u).frame rfl rfl rfl rfl,h.debugPopped⟩

theorem reachable_logged (h : Transition.Reachable step (start : State ι τ) s) : Logged s :=
  h.invariant start_logged fun _ _ _ hs _ hstep => step_logged hs hstep

/-! ### Order -/

/-- Of two lines of one thread by this path the one written first comes first, and no line
comes twice. -/
def InOrder (path : Path) (entries : List (Entry ι τ)) : Prop :=
  entries.Pairwise fun x y =>
    x.path = path → y.path = path → x.thread = y.thread → x.number < y.number

theorem inOrder_of_lines {path : Path} {entries : List (Entry ι τ)}
    (h : ∀ t, (lines t path entries).Pairwise fun x y => x.number < y.number) :
    InOrder path entries := by
  rw [InOrder,List.pairwise_iff_forall_sublist]
  intro x y hsub hx hy hthread
  have hpair := hsub.filter fun entry => entry.thread = y.thread ∧ entry.path = path
  rw [List.filter_cons_of_pos (by simp [hx,hthread]),
    List.filter_cons_of_pos (by simp [hy])] at hpair
  exact List.pairwise_iff_forall_sublist.mp (h y.thread) hpair

theorem Logged.fast_sublist (h : Logged s) (t : ι) :
    (lines t .fast s.emitted).Sublist (lines t .fast s.written) := by
  have htaken : (lines t .fast s.emitted).Sublist (lines t .fast s.taken) :=
    (List.sublist_append_left ..).filter _
  have hserved := h.served t
  exact htaken.trans (hserved.popped.sublist.trans
    ((List.sublist_append_left ..).trans hserved.pushed))

/-- A record in the debug queue was written by the thread that pushed it. -/
theorem Logged.thread_of_mem (h : Logged s) {entry : Entry ι τ}
    (hmem : (t,entry) ∈ s.debugQueue.mem.pushes) : entry.thread = t := by
  have hcall := MpscQueue.calls_of_mem_pushes h.debugQueue hmem
  rw [h.calls] at hcall
  exact (mem_lines.mp hcall).2.1

theorem Logged.debug_sublist (h : Logged s) (hb : s.debugQueue.mem.pushes.length ≤ 2^64) (t : ι) :
    (lines t .debug s.emitted).Sublist (lines t .debug s.written) := by
  have htaken : (lines t .debug s.emitted).Sublist (lines t .debug s.taken) :=
    (List.sublist_append_left ..).filter _
  have hpops : lines t .debug s.taken = s.debugQueue.pops.filter fun entry => entry.thread = t := by
    rw [← h.debugPopped,List.filter_filter]
    simp [lines]
  obtain ⟨r,hr⟩ := MpscQueue.reachable_sound h.debugQueue hb
  have hclaimed : (s.debugQueue.mem.pushes.map Prod.snd).filter (fun entry => entry.thread = t) =
      MpscQueue.claimedBy s.debugQueue.mem.pushes t := by
    rw [List.filter_map,MpscQueue.claimedBy]
    congr 1
    refine List.filter_congr fun push hpush => ?_
    simp [h.thread_of_mem hpush]
  have hcalls := MpscQueue.claimedBy_sublist h.debugQueue t
  rw [← hclaimed,h.calls] at hcalls
  rw [hpops] at htaken
  exact htaken.trans ((hr.pops.sublist.filter _).trans hcalls)

/-- The lines of the fast path stay in order. -/
theorem Logged.fast_inOrder (h : Logged s) : InOrder .fast s.emitted :=
  inOrder_of_lines fun t => (h.numbered.sublist List.filter_sublist).sublist (h.fast_sublist t)

/-- Every run keeps the lines that a thread writes by one path in their order, those of the
debug path as long as at most `2^64` positions are claimed on its queue. -/
theorem run_lines_in_order {as : List (Action ι τ)} (hrun : Transition.run step start as = some s) :
    InOrder .fast s.emitted ∧
      (s.debugQueue.mem.pushes.length ≤ 2^64 → InOrder .debug s.emitted) := by
  have h : Logged s := reachable_logged (Transition.Reachable.run .start hrun)
  exact ⟨h.fast_inOrder,fun hb => inOrder_of_lines fun t =>
    (h.numbered.sublist List.filter_sublist).sublist (h.debug_sublist hb t)⟩

/-- The arguments of a write that goes to the debug queue: a `std::string`. -/
def aString : ArgTypes := ⟨[false],32⟩

/-- The arguments of a fast write: an `int`. -/
def anInt : ArgTypes := ⟨[true],4⟩

/-- A thread writes two lines by each path. One pass of the drain. -/
def paired : List (Action Unit ℕ) :=
  .write () aString 7 :: (List.replicate 6 (.access () false) ++
    .write () anInt 8 :: (List.replicate 11 (.access () false) ++
      .write () aString 9 :: (List.replicate 6 (.access () false) ++
        .write () anInt 10 :: (List.replicate 5 (.access () false) ++
          List.replicate 45 .drain))))

theorem run_lines_in_order_paired : ∃ s : State Unit ℕ,
    Transition.run step start paired = some s ∧
    s.emitted = [⟨(),1,.fast,8⟩,⟨(),3,.fast,10⟩,⟨(),0,.debug,7⟩,⟨(),2,.debug,9⟩] ∧
    InOrder .fast s.emitted ∧ InOrder .debug s.emitted := by
  obtain ⟨s,hrun,hemitted,hclaims⟩ : ∃ s : State Unit ℕ,
      Transition.run step start paired = some s ∧
      s.emitted = [⟨(),1,.fast,8⟩,⟨(),3,.fast,10⟩,⟨(),0,.debug,7⟩,⟨(),2,.debug,9⟩] ∧
      s.debugQueue.mem.pushes.length = 2 := ⟨_,rfl,rfl,rfl⟩
  obtain ⟨hfast,hdebug⟩ := run_lines_in_order hrun
  exact ⟨s,hrun,hemitted,hfast,hdebug (by rw [hclaims]; omega)⟩

end LogDrain
end Marketlib
