import Marketlib.Progress
import Marketlib.SeqLock

/-! How often a read of the sequence lock tries: once more for each store of the writer to the
sequence number that falls into it, and for each attempt that begins while a write is under way.
A writer that stops between its two stores therefore holds up every read. -/

namespace Marketlib
namespace SeqLock

variable {n : ℕ} {ω ρ : Type*}

/-- The stores to the sequence number so far. -/
def stores (s : State n ω ρ) : ℕ :=
  2*s.written.length+match s.writer with
    | .copying _ _ _ => 1
    | _ => 0

/-- The attempts that a reader has to make if no further store comes. -/
def Reader.left (seq : UInt64) : Reader n ω → ℕ
  | .idle => 0
  | .first _ => 1
  | .copying _ s₀ _ _ _ => if s₀ = seq ∧ odd s₀ = false then 0 else 1

theorem Reader.left_le (pc : Reader n ω) (x y : UInt64) : pc.left x ≤ pc.left y+1 := by
  cases pc with
  | idle => exact Nat.zero_le _
  | first c => exact Nat.le_add_right ..
  | copying c s₀ latest todo out =>
    simp only [left]
    split <;> omega

section Retries

variable [DecidableEq ρ] {s t u : State n ω ρ} {r q : ρ}

def attempts (r : ρ) (_ : State n ω ρ) : Action n ω ρ → ℕ
  | .reader q (.loadFirst _) => if q = r then 1 else 0
  | _ => 0

/-- The attempts that begin while the sequence number is odd. -/
def oddAttempts (r : ρ) (s : State n ω ρ) : Action n ω ρ → ℕ
  | .reader q (.loadFirst _) => if q = r ∧ odd s.seq = true then 1 else 0
  | _ => 0

omit [DecidableEq ρ] in
theorem stepWriter_stores {a : WriterAction n ω} (h : stepWriter s s.writer a = some t) :
    t.readers = s.readers ∧
      (t.seq = s.seq ∧ stores t = stores s ∨ stores t = stores s+1) := by
  rcases stepWriter_cases h with ⟨v,hw,rfl⟩ | ⟨v,s₀,order,hw,-,rfl⟩ | ⟨v,s₀,i,todo,hw,rfl⟩ |
    ⟨v,s₀,hw,rfl⟩
  · exact ⟨rfl,.inl ⟨rfl,by simp [stores,hw]⟩⟩
  · exact ⟨rfl,.inr (by simp [stores,hw])⟩
  · exact ⟨rfl,.inl ⟨rfl,by simp [stores,hw]⟩⟩
  · refine ⟨rfl,.inr ?_⟩
    simp only [stores,hw,List.length_append,List.length_singleton]
    omega

theorem stepReader_stores {a : ReaderAction n} (h : stepReader s q (s.readers q) a = some t) :
    t.seq = s.seq ∧ stores t = stores s ∧ ∃ pc, t.readers = Function.update s.readers q pc := by
  obtain ⟨hseq,-,hwriter,hwritten⟩ := stepReader_frame h
  refine ⟨hseq,by rw [stores,stores,hwriter,hwritten],?_⟩
  rcases stepReader_cases h with ⟨_,rfl⟩ | rfl | ⟨_,_,-,-,rfl⟩ | ⟨_,_,_,_,_,_,-,rfl⟩ |
    ⟨_,_,_,-,-,rfl⟩ <;> exact ⟨_,rfl⟩

/-- A step of the reader itself, inside a call. -/
theorem stepReader_left {a : ReaderAction n} (h : stepReader s r (s.readers r) a = some t)
    (ha : ∀ c, a ≠ .call c) :
    attempts r s (.reader r a)+(t.readers r).left s.seq ≤
      (s.readers r).left s.seq+oddAttempts r s (.reader r a) := by
  unfold stepReader at h
  split at h
  · exact absurd rfl (ha _)
  · next c order hr =>
    split_ifs at h with hodd horder
    · cases h
      simp [hr,attempts,oddAttempts,State.setReader,Reader.left]
    · cases h
      by_cases hseq : odd s.seq = true
      · simp [hr,attempts,oddAttempts,State.setReader,Reader.left,hseq]
      · simp [hr,attempts,oddAttempts,State.setReader,Reader.left,hseq]
  · next hr =>
    cases h
    simp [hr,attempts,oddAttempts,State.setReader,Reader.left]
  · next s₀ latest out hr =>
    split_ifs at h with hseq
    · cases h
      have hmoved : ¬(s₀ = s.seq ∧ odd s₀ = false) := by
        rintro ⟨hsame,heven⟩
        rcases hseq with hne | hodd
        · exact hne hsame
        · rw [heven] at hodd
          cases hodd
      simp [hr,attempts,oddAttempts,State.setReader,Reader.left,hmoved]
    · cases h
      simp [hr,attempts,oddAttempts,State.returns,State.setReader,Reader.left]
  · next s₀ latest out hr =>
    split_ifs at h with hseq
    · cases h
      simp [hr,attempts,oddAttempts,State.returns,State.setReader,Reader.left]
    · cases h
      simp [hr,attempts,oddAttempts,State.setReader,Reader.left]
  · cases h

/-- The reader begins no other call. -/
def Same (r : ρ) (a : Action n ω ρ) : Prop := ∀ c, a ≠ .reader r (.call c)

theorem step_pays {a : Action n ω ρ} (ha : Same r a) (hstep : step s a = some t) :
    attempts r s a+(t.readers r).left t.seq+1*stores s ≤
      (s.readers r).left s.seq+1*(stores t+oddAttempts r s a) := by
  cases a with
  | writer a =>
    obtain ⟨hreaders,⟨hseq,hstores⟩ | hstores⟩ := stepWriter_stores hstep
    · simp only [attempts,oddAttempts,hreaders,hseq,hstores]
      omega
    · have hdelay := (s.readers r).left_le t.seq s.seq
      simp only [attempts,oddAttempts,hreaders,hstores]
      omega
  | reader q a =>
    obtain ⟨hseq,hstores,pc,hreaders⟩ := stepReader_stores hstep
    by_cases hq : q = r
    · subst hq
      have hleft := stepReader_left hstep fun c hc => ha c (by rw [hc])
      rw [hseq,hstores]
      omega
    · have hnone : attempts r s (.reader q a) = 0 := by
        cases a <;> simp [attempts,hq]
      rw [hreaders,Function.update_of_ne (Ne.symm hq),hseq,hstores,hnone]
      omega

theorem reader_enabled (r : ρ) (s : State n ω ρ) :
    s.readers r = .idle ∨ ∃ a : ReaderAction n, (∀ c, a ≠ .call c) ∧
      (step s (.reader r a)).isSome = true := by
  cases hpc : s.readers r with
  | idle => exact .inl rfl
  | first c =>
    refine .inr ⟨.loadFirst (List.finRange n),nofun,?_⟩
    simp only [step,hpc,stepReader]
    split_ifs with hodd horder
    · rfl
    · rfl
    · exact absurd List.mem_finRange horder
  | copying c s₀ latest todo out =>
    cases todo with
    | cons i todo => exact .inr ⟨.copyWord,nofun,by simp [step,hpc,stepReader]⟩
    | nil =>
      refine .inr ⟨.loadSecond,nofun,?_⟩
      cases c <;> simp only [step,hpc,stepReader] <;> split_ifs <;> rfl

/-- A call of `read` or `try_read` tries once, and once more at most for each store to the
sequence number that falls into it and for each attempt that begins between the two stores of a
write. It is never stuck. -/
theorem run_read_attempts {as : List (Action n ω ρ)} {c : Call} (hpc : s.readers r = .first c)
    (hsame : ∀ a ∈ as, Same r a) (hrun : Transition.run step s as = some u) :
    Transition.tally step (attempts r) s as ≤
        1+(stores u-stores s)+Transition.tally step (oddAttempts r) s as ∧
      (u.readers r = .idle ∨ ∃ a : ReaderAction n, (∀ c, a ≠ .call c) ∧
        (step u (.reader r a)).isSome = true) := by
  have hpaid : Transition.tally step (attempts r) s as+(u.readers r).left u.seq+1*stores s ≤
      (s.readers r).left s.seq+1*(stores u+Transition.tally step (oddAttempts r) s as) :=
    Transition.run_pays_of_step (fun s => (s.readers r).left s.seq) stores (attempts r)
      (oddAttempts r) 1 (fun _ _ _ ha hstep => step_pays ha hstep)
      (Transition.admits_of_forall hsame) hrun
  refine ⟨?_,reader_enabled r u⟩
  rw [hpc,Reader.left] at hpaid
  omega

/-- Where an attempt fails for certain while the sequence number stays. -/
def Reader.Waits (seq : UInt64) : Reader n ω → Prop
  | .first c => c = .read
  | .copying c s₀ _ _ _ => c = .read ∧ s₀ = seq
  | .idle => False

theorem stepReader_waits {a : ReaderAction n} (hodd : odd s.seq = true)
    (hwaits : (s.readers r).Waits s.seq) (h : stepReader s r (s.readers r) a = some t) :
    (t.readers r).Waits s.seq ∧ t.results = s.results := by
  unfold stepReader at h
  split at h
  · next hr =>
    rw [hr] at hwaits
    exact hwaits.elim
  · next c order hr =>
    rw [hr] at hwaits
    obtain rfl : c = .read := hwaits
    have htry : ¬(Call.read = .tryRead ∧ odd s.seq = true) := fun htry => by cases htry.1
    rw [if_neg htry] at h
    split_ifs at h with horder
    cases h
    simp [State.setReader,Reader.Waits]
  · next hr =>
    rw [hr] at hwaits
    cases h
    simpa [State.setReader,Reader.Waits] using hwaits
  · next hr =>
    rw [hr] at hwaits
    obtain ⟨-,rfl⟩ := hwaits
    rw [if_pos (.inr hodd)] at h
    cases h
    simp [State.setReader,Reader.Waits]
  · next hr =>
    rw [hr] at hwaits
    cases hwaits.1
  · cases h

theorem step_waits {a : Action n ω ρ} (ha : ∀ b, a ≠ .writer b) (hodd : odd s.seq = true)
    (hwaits : (s.readers r).Waits s.seq) (h : step s a = some t) :
    t.seq = s.seq ∧ (t.readers r).Waits t.seq ∧
      (t.results.filter fun res => res.reader = r) =
        s.results.filter fun res => res.reader = r := by
  cases a with
  | writer b => exact absurd rfl (ha b)
  | reader q b =>
    obtain ⟨hseq,-,pc,hreaders⟩ := stepReader_stores h
    refine ⟨hseq,?_⟩
    rw [hseq]
    by_cases hq : q = r
    · subst hq
      obtain ⟨hstays,hresults⟩ := stepReader_waits hodd hwaits h
      exact ⟨hstays,by rw [hresults]⟩
    · refine ⟨by rwa [hreaders,Function.update_of_ne (Ne.symm hq)],?_⟩
      rcases stepReader_cases h with ⟨_,rfl⟩ | rfl | ⟨_,_,-,-,rfl⟩ | ⟨_,_,_,_,_,_,-,rfl⟩ |
        ⟨_,latest,out,-,-,rfl⟩
      · rfl
      · rfl
      · rfl
      · rfl
      · simp [State.returns,State.setReader,hq]

/-- A writer that has stopped between its two stores holds up every `read`: whatever the readers
do, none that is at the beginning of an attempt returns. -/
theorem run_read_waits {initial : Payload n ω} {as bs : List (Action n ω ρ)} {v : Payload n ω}
    {s₀ : UInt64} {todo : List (Fin n)} (hrun : Transition.run step (start initial) as = some s)
    (hb : s.written.length < 2^63) (hw : s.writer = .copying v s₀ todo)
    (hpc : s.readers r = .first .read) (hstopped : ∀ a ∈ bs, ∀ b, a ≠ .writer b)
    (hrest : Transition.run step s bs = some u) :
    u.readers r ≠ .idle ∧ (u.results.filter fun res => res.reader = r) =
      s.results.filter fun res => res.reader = r := by
  have hodd : odd s.seq = true := by
    have hok := (reachable_inv (Transition.Reachable.run .start hrun) hb).writer
    simp only [WriterOk,hw] at hok
    rw [← Bool.not_eq_false,odd_eq_false]
    omega
  have hreach := Transition.ReachableBy.admits .start
    (Transition.admits_of_forall hstopped) hrest
  have hwaits := hreach.invariant (P := fun u => u.seq = s.seq ∧ (u.readers r).Waits u.seq ∧
      (u.results.filter fun res => res.reader = r) = s.results.filter fun res => res.reader = r)
    ⟨rfl,by rw [hpc]; rfl,rfl⟩ fun v a w hv ha hstep => by
      obtain ⟨hseq,hstays,hresults⟩ := hv
      obtain ⟨hseq',hstays',hresults'⟩ := step_waits ha (by rwa [hseq]) hstays hstep
      exact ⟨hseq'.trans hseq,hstays',hresults'.trans hresults⟩
  refine ⟨fun hidle => ?_,hwaits.2.2⟩
  have hgone := hwaits.2.1
  rw [hidle] at hgone
  exact hgone

end Retries

/-- The attempts of `retriedRead` after its call. -/
def retried : List (Action 2 ℕ Bool) := retriedRead.tail

theorem run_read_attempts_retried : ∃ s u : State 2 ℕ Bool,
    Transition.run step (start fun _ => 3) [.reader true (.call .read)] = some s ∧
    Transition.run step s retried = some u ∧
    Transition.tally step (attempts true) s retried ≤
      1+(stores u-stores s)+Transition.tally step (oddAttempts true) s retried := by
  obtain ⟨s,u,hcall,hpc,hrest⟩ : ∃ s u : State 2 ℕ Bool,
      Transition.run step (start fun _ => 3) [.reader true (.call .read)] = some s ∧
      s.readers true = .first .read ∧ Transition.run step s retried = some u := ⟨_,_,rfl,rfl,rfl⟩
  refine ⟨s,u,hcall,hrest,(run_read_attempts hpc (fun a ha c hc => ?_) hrest).1⟩
  subst hc
  simp [retried,retriedRead] at ha

/-- The writer stops after its first store, and a reader tries twice. -/
def stopped : List (Action 2 ℕ Bool) :=
  [.writer (.load fun _ => 5),.writer (.storeOdd (List.finRange 2)),.reader true (.call .read)]

def tries : List (Action 2 ℕ Bool) :=
  [.reader true (.loadFirst (List.finRange 2)),.reader true .copyWord,.reader true .copyWord,
    .reader true .loadSecond,.reader true (.loadFirst (List.finRange 2))]

theorem run_read_waits_stopped : ∃ s u : State 2 ℕ Bool,
    Transition.run step (start fun _ => 3) stopped = some s ∧
    Transition.run step s tries = some u ∧ u.readers true ≠ .idle ∧
    (u.results.filter fun res => res.reader = true) =
      s.results.filter fun res => res.reader = true := by
  obtain ⟨s,u,hrun,hb,⟨v,s₀,todo,hw⟩,hpc,hrest⟩ : ∃ s u : State 2 ℕ Bool,
      Transition.run step (start fun _ => 3) stopped = some s ∧ s.written.length = 0 ∧
      (∃ v s₀ todo, s.writer = .copying v s₀ todo) ∧ s.readers true = .first .read ∧
      Transition.run step s tries = some u := ⟨_,_,rfl,rfl,⟨_,_,_,rfl⟩,rfl,rfl⟩
  refine ⟨s,u,hrun,hrest,run_read_waits hrun (by omega) hw hpc (fun a ha b hab => ?_) hrest⟩
  subst hab
  simp [tries] at ha

end SeqLock
end Marketlib
