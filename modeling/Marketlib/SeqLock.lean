import Mathlib.Data.UInt
import Mathlib.Data.Fintype.Basic
import Mathlib.Data.List.GetD
import Mathlib.Logic.Function.Basic
import Mathlib.Tactic.Common
import Marketlib.Transition

/-! The single-writer sequence lock, one atomic access a step. The payload is copied
word by word, each copy in an order of its own. `written` and `results` record what
happened and are read by no step, except that a reader notes at its first sequence load
how many writes are complete. -/

namespace Marketlib
namespace SeqLock

variable {n : ℕ} {ω ρ : Type*}

abbrev Payload (n : ℕ) (ω : Type*) := Fin n → ω

inductive Writer (n : ℕ) (ω : Type*)
  | idle
  /-- `s` is loaded; the store of `s + 1` is next. -/
  | loaded (value : Payload n ω) (s : UInt64)
  /-- `payload_ = value` with some words to go, then the store of `s + 2`. -/
  | copying (value : Payload n ω) (s : UInt64) (todo : List (Fin n))

inductive Call
  | read | tryRead
  deriving DecidableEq

inductive Reader (n : ℕ) (ω : Type*)
  | idle
  /-- The load of `s0` is next. -/
  | first (call : Call)
  /-- `out = payload_` with some words to go, then the load of `s1`. -/
  | copying (call : Call) (s0 : UInt64) (latest : ℕ) (todo : List (Fin n)) (out : Fin n → Option ω)

/-- A read that returned, or a `try_read` that returned true: its value, and the number
of writes that were complete at the first sequence load of its last attempt. -/
structure Result (n : ℕ) (ω ρ : Type*) where
  reader : ρ
  value : Fin n → Option ω
  latest : ℕ

structure State (n : ℕ) (ω ρ : Type*) where
  seq : UInt64
  payload : Payload n ω
  writer : Writer n ω
  readers : ρ → Reader n ω
  written : List (Payload n ω)
  results : List (Result n ω ρ)

inductive WriterAction (n : ℕ) (ω : Type*)
  | load (value : Payload n ω)
  | storeOdd (order : List (Fin n))
  | copyWord
  | storeEven

inductive ReaderAction (n : ℕ)
  | call (call : Call)
  | loadFirst (order : List (Fin n))
  | copyWord
  | loadSecond

inductive Action (n : ℕ) (ω ρ : Type*)
  | writer (a : WriterAction n ω)
  | reader (r : ρ) (a : ReaderAction n)

def start (payload : Payload n ω) : State n ω ρ := ⟨0,payload,.idle,fun _ => .idle,[],[]⟩

/-- `(s & 1) != 0`. -/
def odd (s : UInt64) : Bool := s &&& 1 != 0

/-- `write`. -/
def stepWriter (s : State n ω ρ) : Writer n ω → WriterAction n ω → Option (State n ω ρ)
  | .idle, .load value => some { s with writer := .loaded value s.seq }
  | .loaded value s₀, .storeOdd order =>
    if ∀ i, i ∈ order then some { s with seq := s₀+1, writer := .copying value s₀ order }
    else none
  | .copying value s₀ (i :: todo), .copyWord =>
    some { s with
      payload := Function.update s.payload i (value i)
      writer := .copying value s₀ todo }
  | .copying value s₀ [], .storeEven =>
    some { s with seq := s₀+2, writer := .idle, written := s.written ++ [value] }
  | _, _ => none

theorem stepWriter_cases {s t : State n ω ρ} {a : WriterAction n ω}
    (h : stepWriter s s.writer a = some t) :
    (∃ v, s.writer = .idle ∧ t = { s with writer := .loaded v s.seq }) ∨
    (∃ v s₀ order, s.writer = .loaded v s₀ ∧ (∀ i, i ∈ order) ∧
      t = { s with seq := s₀+1, writer := .copying v s₀ order }) ∨
    (∃ v s₀ i todo, s.writer = .copying v s₀ (i :: todo) ∧
      t = { s with
        payload := Function.update s.payload i (v i)
        writer := .copying v s₀ todo }) ∨
    ∃ v s₀, s.writer = .copying v s₀ [] ∧
      t = { s with seq := s₀+2, writer := .idle, written := s.written ++ [v] } := by
  unfold stepWriter at h
  split at h
  · next hw => exact .inl ⟨_,hw,(Option.some.inj h).symm⟩
  · next hw =>
    split_ifs at h with horder
    exact .inr (.inl ⟨_,_,_,hw,horder,(Option.some.inj h).symm⟩)
  · next hw => exact .inr (.inr (.inl ⟨_,_,_,_,hw,(Option.some.inj h).symm⟩))
  · next hw => exact .inr (.inr (.inr ⟨_,_,hw,(Option.some.inj h).symm⟩))
  · cases h

/-- The value of a write under way. -/
def Writer.value : Writer n ω → Option (Payload n ω)
  | .idle => none
  | .loaded v _ | .copying v _ _ => some v

/-- A write under way stays the same until it is complete. -/
theorem stepWriter_value {s t : State n ω ρ} {a : WriterAction n ω}
    (h : stepWriter s s.writer a = some t) :
    (∃ v, a = .load v ∧ s.writer = .idle ∧ t.writer.value = some v ∧ t.written = s.written) ∨
      s.writer ≠ .idle ∧
        t.written ++ t.writer.value.toList = s.written ++ s.writer.value.toList := by
  unfold stepWriter at h
  split at h
  · next v hw =>
    cases h
    exact .inl ⟨v,rfl,hw,rfl,rfl⟩
  · next hw =>
    split_ifs at h
    cases h
    exact .inr ⟨by rw [hw]; nofun,by rw [hw]; rfl⟩
  · next hw =>
    cases h
    exact .inr ⟨by rw [hw]; nofun,by rw [hw]; rfl⟩
  · next hw =>
    cases h
    exact .inr ⟨by rw [hw]; nofun,by rw [hw]; exact List.append_nil _⟩
  · cases h

section Readers

variable [DecidableEq ρ]

def State.setReader (s : State n ω ρ) (r : ρ) (pc : Reader n ω) : State n ω ρ :=
  { s with readers := Function.update s.readers r pc }

def State.returns (s : State n ω ρ) (r : ρ) (value : Fin n → Option ω) (latest : ℕ) :
    State n ω ρ :=
  { s.setReader r .idle with results := s.results ++ [⟨r,value,latest⟩] }

/-- `read` and `try_read`, which differ in when they give up and when they try again. -/
def stepReader (s : State n ω ρ) (r : ρ) : Reader n ω → ReaderAction n → Option (State n ω ρ)
  | .idle, .call c => some (s.setReader r (.first c))
  | .first c, .loadFirst order =>
    if c = .tryRead ∧ odd s.seq then some (s.setReader r .idle)
    else if ∀ i, i ∈ order then
      some (s.setReader r (.copying c s.seq s.written.length order fun _ => none))
    else none
  | .copying c s₀ latest (i :: todo) out, .copyWord =>
    some (s.setReader r
      (.copying c s₀ latest todo (Function.update out i (some (s.payload i)))))
  | .copying .read s₀ latest [] out, .loadSecond =>
    if s₀ ≠ s.seq ∨ odd s₀ then some (s.setReader r (.first .read))
    else some (s.returns r out latest)
  | .copying .tryRead s₀ latest [] out, .loadSecond =>
    if s₀ = s.seq then some (s.returns r out latest) else some (s.setReader r .idle)
  | _, _ => none

theorem stepReader_cases {s t : State n ω ρ} {r : ρ} {a : ReaderAction n}
    (h : stepReader s r (s.readers r) a = some t) :
    (∃ c, t = s.setReader r (.first c)) ∨ t = s.setReader r .idle ∨
    (∃ c order, (c = .tryRead → odd s.seq = false) ∧ (∀ i, i ∈ order) ∧
      t = s.setReader r (.copying c s.seq s.written.length order fun _ => none)) ∨
    (∃ c s₀ latest i todo out, s.readers r = .copying c s₀ latest (i :: todo) out ∧
      t = s.setReader r
        (.copying c s₀ latest todo (Function.update out i (some (s.payload i))))) ∨
    ∃ c latest out, s.readers r = .copying c s.seq latest [] out ∧
      (c = .read → odd s.seq = false) ∧ t = s.returns r out latest := by
  unfold stepReader at h
  split at h
  · exact .inl ⟨_,(Option.some.inj h).symm⟩
  · split_ifs at h with hodd horder
    · exact .inr (.inl (Option.some.inj h).symm)
    · exact .inr (.inr (.inl ⟨_,_,by simpa using hodd,horder,(Option.some.inj h).symm⟩))
  · next hr => exact .inr (.inr (.inr (.inl ⟨_,_,_,_,_,_,hr,(Option.some.inj h).symm⟩)))
  · next hr =>
    split_ifs at h with hseq
    · exact .inl ⟨_,(Option.some.inj h).symm⟩
    · push Not at hseq
      obtain ⟨rfl,hodd⟩ := hseq
      exact .inr (.inr (.inr (.inr ⟨_,_,_,hr,by simpa using hodd,(Option.some.inj h).symm⟩)))
  · next hr =>
    split_ifs at h with hseq
    · subst hseq
      exact .inr (.inr (.inr (.inr ⟨_,_,_,hr,by simp,(Option.some.inj h).symm⟩)))
    · exact .inr (.inl (Option.some.inj h).symm)
  · cases h

/-- A reader changes nothing that others see. -/
theorem stepReader_frame {s t : State n ω ρ} {r : ρ} {a : ReaderAction n}
    (h : stepReader s r (s.readers r) a = some t) :
    t.seq = s.seq ∧ t.payload = s.payload ∧ t.writer = s.writer ∧ t.written = s.written := by
  rcases stepReader_cases h with ⟨_,rfl⟩ | rfl | ⟨_,_,-,-,rfl⟩ | ⟨_,_,_,_,_,_,-,rfl⟩ |
    ⟨_,_,_,-,-,rfl⟩ <;> exact ⟨rfl,rfl,rfl,rfl⟩

def step (s : State n ω ρ) : Action n ω ρ → Option (State n ω ρ)
  | .writer a => stepWriter s s.writer a
  | .reader r a => stepReader s r (s.readers r) a

end Readers

/-! ### The invariant -/

/-- The payload after the first `k` writes. -/
def version (initial : Payload n ω) (written : List (Payload n ω)) (k : ℕ) : Payload n ω :=
  (initial :: written).getD k initial

/-- The sequence number counts the writes twice, and is odd while one is under way. -/
def WriterOk (initial : Payload n ω) (s : State n ω ρ) : Prop :=
  match s.writer with
  | .idle => s.seq.toNat = 2*s.written.length ∧
      s.payload = version initial s.written s.written.length
  | .loaded _ s₀ => s₀ = s.seq ∧ s.seq.toNat = 2*s.written.length ∧
      s.payload = version initial s.written s.written.length
  | .copying v s₀ todo => s₀.toNat = 2*s.written.length ∧ s.seq.toNat = 2*s.written.length+1 ∧
      ∀ i, i ∉ todo → s.payload i = v i

/-- What a reader has copied is of version `latest`, if no store hit the sequence number
since it was loaded and it is even. -/
def ReaderOk (initial : Payload n ω) (s : State n ω ρ) (r : ρ) : Reader n ω → Prop
  | .idle => True
  | .first _ => True
  | .copying c s₀ latest todo out => latest ≤ s.written.length ∧ s₀.toNat ≤ s.seq.toNat ∧
      (s₀.toNat = 2*latest ∨ s₀.toNat = 2*latest+1) ∧ (c = .tryRead → odd s₀ = false) ∧
      (s₀ = s.seq → odd s₀ = false → ∀ i, i ∉ todo →
        out i = some (version initial s.written latest i)) ∧
      ∀ res ∈ s.results, res.reader = r → res.latest ≤ latest

structure Inv (initial : Payload n ω) (s : State n ω ρ) : Prop where
  writer : WriterOk initial s
  readers : ∀ r, ReaderOk initial s r (s.readers r)
  results : ∀ res ∈ s.results, res.latest ≤ s.written.length ∧
    res.value = fun i => some (version initial s.written res.latest i)
  ordered : s.results.Pairwise fun res res' => res.reader = res'.reader → res.latest ≤ res'.latest

theorem odd_eq_false (s : UInt64) : odd s = false ↔ s.toNat % 2 = 0 := by
  have hand : s &&& 1 = 0 ↔ s.toNat % 2 = 0 := by
    rw [← UInt64.toNat_inj,UInt64.toNat_and]
    simp [Nat.and_one_is_mod]
  simpa [odd] using hand

theorem version_append (initial : Payload n ω) {written : List (Payload n ω)} {k : ℕ}
    (h : k ≤ written.length) (vs : List (Payload n ω)) :
    version initial (written ++ vs) k = version initial written k := by
  rw [version,version,← List.cons_append,List.getD_append]
  simpa using Nat.lt_succ_of_le h

theorem version_last (initial : Payload n ω) (written : List (Payload n ω)) (v : Payload n ω) :
    version initial (written ++ [v]) (written.length+1) = v := by
  simp [version]

theorem start_inv (initial : Payload n ω) : Inv initial (start initial : State n ω ρ) where
  writer := ⟨rfl,rfl⟩
  readers := fun _ => trivial
  results := by simp [start]
  ordered := .nil

/-- While the sequence number is even, the payload is the latest completed version. -/
theorem WriterOk.payload_of_even {initial : Payload n ω} {s : State n ω ρ}
    (h : WriterOk initial s) (heven : odd s.seq = false) :
    s.seq.toNat = 2*s.written.length ∧ s.payload = version initial s.written s.written.length := by
  rw [odd_eq_false] at heven
  unfold WriterOk at h
  split at h
  · exact h
  · exact h.2
  · omega

theorem WriterOk.seq_bounds {initial : Payload n ω} {s : State n ω ρ} (h : WriterOk initial s) :
    s.seq.toNat = 2*s.written.length ∨ s.seq.toNat = 2*s.written.length+1 := by
  unfold WriterOk at h
  split at h
  · exact .inl h.1
  · exact .inl h.2.1
  · exact .inr h.2.1

/-- A reader's knowledge survives every step that only moves the sequence number and the
history forward. -/
theorem ReaderOk.mono {initial : Payload n ω} {s t : State n ω ρ} {r : ρ} {pc : Reader n ω}
    (h : ReaderOk initial s r pc) (hseq : s.seq.toNat ≤ t.seq.toNat)
    (hwritten : ∃ vs, t.written = s.written ++ vs)
    (hresults : ∀ res ∈ t.results, res.reader = r → res ∈ s.results) :
    ReaderOk initial t r pc := by
  cases pc with
  | idle => trivial
  | first c => trivial
  | copying c s₀ latest todo out =>
    obtain ⟨hle,hs₀,hparity,hc,hcopied,hold⟩ := h
    obtain ⟨vs,hvs⟩ := hwritten
    refine ⟨by rw [hvs,List.length_append]; omega,hs₀.trans hseq,hparity,hc,?_,
      fun res hres hr => hold res (hresults res hres hr) hr⟩
    intro heq heven i hi
    have hsame : s₀ = s.seq := by
      rw [← heq] at hseq
      exact UInt64.toNat_inj.mp (le_antisymm hs₀ hseq)
    rw [hvs,version_append initial hle]
    exact hcopied hsame heven i hi

variable {initial : Payload n ω} {s t : State n ω ρ}

/-- A step of the writer keeps the readers' part once the sequence number only grows. -/
theorem Inv.writes (h : Inv initial s) (hwriter : WriterOk initial t)
    (hseq : s.seq.toNat ≤ t.seq.toNat) (hwritten : ∃ vs, t.written = s.written ++ vs)
    (hreaders : t.readers = s.readers) (hresults : t.results = s.results) : Inv initial t where
  writer := hwriter
  readers := fun r => by
    rw [hreaders]
    exact (h.readers r).mono hseq hwritten fun res hres _ => hresults ▸ hres
  results := fun res hres => by
    rw [hresults] at hres
    obtain ⟨hle,hvalue⟩ := h.results res hres
    obtain ⟨vs,hvs⟩ := hwritten
    refine ⟨by rw [hvs,List.length_append]; omega,?_⟩
    rw [hvs,version_append initial hle,hvalue]
  ordered := hresults ▸ h.ordered

theorem stepWriter_inv {a : WriterAction n ω} (h : Inv initial s) (hb : t.written.length < 2^63)
    (hstep : stepWriter s s.writer a = some t) : Inv initial t := by
  have hok := h.writer
  rcases stepWriter_cases hstep with ⟨v,hw,rfl⟩ | ⟨v,s₀,order,hw,horder,rfl⟩ |
    ⟨v,s₀,i,todo,hw,rfl⟩ | ⟨v,s₀,hw,rfl⟩
  · simp only [WriterOk,hw] at hok
    exact h.writes ⟨rfl,hok⟩ le_rfl ⟨[],by simp⟩ rfl rfl
  · simp only [WriterOk,hw] at hok
    obtain ⟨rfl,hseq,_⟩ := hok
    have hnext : (s.seq+1).toNat = 2*s.written.length+1 := by
      rw [UInt64.toNat_add,hseq]
      exact Nat.mod_eq_of_lt (by simp at hb ⊢; omega)
    refine h.writes ⟨hseq,hnext,?_⟩ (by simp only; omega) ⟨[],by simp⟩ rfl rfl
    exact fun i hi => absurd (horder i) hi
  · simp only [WriterOk,hw] at hok
    obtain ⟨hs₀,hseq,hcopied⟩ := hok
    refine h.writes ⟨hs₀,hseq,?_⟩ le_rfl ⟨[],by simp⟩ rfl rfl
    intro j hj
    by_cases hij : j = i
    · simp [hij]
    · simp only [Function.update_of_ne hij]
      exact hcopied j (by simp [hij,hj])
  · simp only [WriterOk,hw] at hok
    obtain ⟨hs₀,hseq,hcopied⟩ := hok
    have hnext : (s₀+2).toNat = 2*(s.written.length+1) := by
      rw [UInt64.toNat_add,hs₀]
      exact Nat.mod_eq_of_lt (by simp at hb ⊢; omega)
    refine h.writes ⟨by simpa using hnext,?_⟩ (by simp only; omega) ⟨[v],rfl⟩ rfl rfl
    simp only [List.length_append,List.length_singleton,version_last]
    exact funext fun i => hcopied i (by simp)

variable [DecidableEq ρ]

/-- A step of one reader that returns nothing. -/
theorem Inv.reads (h : Inv initial s) {r : ρ} {pc : Reader n ω} (hpc : ReaderOk initial s r pc) :
    Inv initial (s.setReader r pc) where
  writer := h.writer
  readers := fun r' => by
    change ReaderOk initial _ r' (Function.update s.readers r pc r')
    by_cases hr : r' = r
    · subst hr
      rw [Function.update_self]
      exact hpc.mono le_rfl ⟨[],by simp [State.setReader]⟩ fun _ hres _ => hres
    · rw [Function.update_of_ne hr]
      exact (h.readers r').mono le_rfl ⟨[],by simp [State.setReader]⟩ fun _ hres _ => hres
  results := h.results
  ordered := h.ordered

theorem stepReader_inv {r : ρ} {a : ReaderAction n} (h : Inv initial s)
    (hstep : stepReader s r (s.readers r) a = some t) : Inv initial t := by
  rcases stepReader_cases hstep with ⟨c,rfl⟩ | rfl | ⟨c,order,hc,horder,rfl⟩ |
    ⟨c,s₀,latest,i,todo,out,hr,rfl⟩ | ⟨c,latest,out,hr,hc,rfl⟩
  · exact h.reads trivial
  · exact h.reads trivial
  · refine h.reads ⟨le_rfl,le_rfl,h.writer.seq_bounds,hc,?_,fun res hres _ => (h.results res hres).1⟩
    exact fun _ _ i hi => absurd (horder i) hi
  · have hok := h.readers r
    rw [hr] at hok
    obtain ⟨hle,hs₀,hparity,hc,hcopied,hold⟩ := hok
    refine h.reads ⟨hle,hs₀,hparity,hc,fun heq heven j hj => ?_,hold⟩
    by_cases hij : j = i
    · subst hij
      obtain ⟨hseq,hpayload⟩ := h.writer.payload_of_even (heq ▸ heven)
      have hlatest : latest = s.written.length := by
        rw [heq] at hparity
        omega
      rw [Function.update_self,hpayload,hlatest]
    · rw [Function.update_of_ne hij]
      exact hcopied heq heven j (by simp [hij,hj])
  · have hok := h.readers r
    rw [hr] at hok
    obtain ⟨hle,_,_,hc',hcopied,hold⟩ := hok
    have heven : odd s.seq = false := by
      cases c with
      | read => exact hc rfl
      | tryRead => exact hc' rfl
    have hvalue : out = fun i => some (version initial s.written latest i) :=
      funext fun i => hcopied rfl heven i (by simp)
    refine ⟨h.writer,fun r' => ?_,fun res hres => ?_,?_⟩
    · change ReaderOk initial _ r' (Function.update s.readers r .idle r')
      by_cases hr' : r' = r
      · rw [hr',Function.update_self]
        trivial
      · rw [Function.update_of_ne hr']
        refine (h.readers r').mono le_rfl ⟨[],by simp [State.returns,State.setReader]⟩ ?_
        intro res hres hreader
        rcases List.mem_append.mp hres with hres | hres
        · exact hres
        · rw [List.mem_singleton.mp hres] at hreader
          exact absurd hreader.symm hr'
    · rcases List.mem_append.mp hres with hres | hres
      · exact h.results res hres
      · rw [List.mem_singleton.mp hres]
        exact ⟨hle,hvalue⟩
    · refine List.pairwise_append.mpr ⟨h.ordered,List.pairwise_singleton _ _,?_⟩
      intro res hres res' hres' hreader
      rw [List.mem_singleton.mp hres'] at hreader ⊢
      exact hold res hres hreader

/-! ### Every run -/

/-- The history of completed writes is never cut back. -/
theorem written_le {a : Action n ω ρ} (hstep : step s a = some t) :
    s.written.length ≤ t.written.length := by
  cases a with
  | writer a =>
    rcases stepWriter_cases hstep with ⟨v,_,rfl⟩ | ⟨v,s₀,order,_,_,rfl⟩ | ⟨v,s₀,i,todo,_,rfl⟩ |
      ⟨v,s₀,_,rfl⟩ <;> simp
  | reader r a =>
    rcases stepReader_cases hstep with ⟨c,rfl⟩ | rfl | ⟨c,order,_,_,rfl⟩ |
      ⟨c,s₀,latest,i,todo,out,_,rfl⟩ | ⟨c,latest,out,_,_,rfl⟩ <;>
      simp [State.returns,State.setReader]

theorem reachable_inv (h : Transition.Reachable step (start initial) s)
    (hb : s.written.length < 2^63) : Inv initial s := by
  refine Transition.ReachableBy.invariant_of_bound (fun s => s.written.length < 2^63)
    (start_inv initial) (fun s a t hstep ht => (written_le hstep).trans_lt ht) ?_ h hb
  intro s a t hinv ht _ hstep
  cases a with
  | writer a => exact stepWriter_inv hinv ht hstep
  | reader r a => exact stepReader_inv hinv hstep

/-- In every run with fewer than `2^63` writes, a read returns all words of one version,
that of the writes complete at its first sequence load, and no reader goes back. -/
theorem run_reads_latest {as : List (Action n ω ρ)}
    (hrun : Transition.run step (start initial) as = some s) (hb : s.written.length < 2^63) :
    (∀ res ∈ s.results, res.latest ≤ s.written.length ∧
      res.value = fun i => some (version initial s.written res.latest i)) ∧
    s.results.Pairwise fun res res' => res.reader = res'.reader → res.latest ≤ res'.latest := by
  have hinv := reachable_inv (Transition.reachable_iff_run.mpr ⟨as,hrun⟩) hb
  exact ⟨hinv.results,hinv.ordered⟩

/-- A reader whose first attempt straddles a write tries again. -/
def retriedRead : List (Action 2 ℕ Bool) :=
  [.reader true (.call .read),.reader true (.loadFirst (List.finRange 2)),.reader true .copyWord,
    .writer (.load fun _ => 5),.writer (.storeOdd (List.finRange 2).reverse),.writer .copyWord,
    .reader true .copyWord,.writer .copyWord,.writer .storeEven,.reader true .loadSecond,
    .reader true (.loadFirst (List.finRange 2).reverse),.reader true .copyWord,
    .reader true .copyWord,.reader true .loadSecond]

theorem run_reads_latest_retried :
    ∃ s, Transition.run step (start fun _ => 3) retriedRead = some s ∧
      s.results.map Result.latest = [1] ∧
      (∀ res ∈ s.results, res.latest ≤ s.written.length ∧
        res.value = fun i => some (version (fun _ => 3) s.written res.latest i)) ∧
      s.results.Pairwise fun res res' => res.reader = res'.reader → res.latest ≤ res'.latest := by
  obtain ⟨s,hrun,hwritten,hresults⟩ : ∃ s,
      Transition.run step (start fun _ => 3) retriedRead = some s ∧ s.written.length = 1 ∧
      s.results.map Result.latest = [1] := ⟨_,rfl,rfl,rfl⟩
  exact ⟨s,hrun,hresults,run_reads_latest hrun (by omega)⟩

end SeqLock
end Marketlib
