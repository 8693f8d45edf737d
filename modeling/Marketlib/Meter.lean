import Mathlib.Data.UInt
import Marketlib.Transition

/-! Two counters of a machine, read one after the other by threads that only look on. What
a reader makes of them mixes two moments; the counts that the words stood for are recorded
beside them and read by no step. -/

namespace Marketlib

/-- The counters of a machine with states `σ`, and what a reader makes of their words. -/
structure Meter (σ : Type*) where
  head : σ → UInt64
  tail : σ → UInt64
  /-- What the counters count. -/
  pushed : σ → ℕ
  popped : σ → ℕ
  size : UInt64 → UInt64 → UInt64
  /-- Whether a reader may also load the tail first. -/
  tailFirst : Bool

namespace Meter

variable {σ α ω : Type*}

inductive Counter | head | tail

/-- Where a thread is in its reading. -/
inductive Reader
  | idle
  /-- The head was loaded, while `seen` were pushed. -/
  | loadTail (h : UInt64) (seen : ℕ)
  /-- The tail was loaded, while `seen` were popped. -/
  | loadHead (t : UInt64) (seen : ℕ)
  | returned (n : UInt64)

structure Watched (σ ω : Type*) where
  machine : σ
  readers : ω → Reader
  /-- What the readers returned. -/
  sizes : List UInt64

def watch (s : σ) : Watched σ ω := ⟨s,fun _ => .idle,[]⟩

inductive Action (α ω : Type*)
  | act (a : α)
  | load (w : ω) (c : Counter)

variable [DecidableEq ω]

/-- The second load, which decides what is returned. -/
def Watched.finish (s : Watched σ ω) (w : ω) (n : UInt64) : Watched σ ω :=
  { s with readers := Function.update s.readers w (.returned n), sizes := s.sizes ++ [n] }

def Watched.begin (s : Watched σ ω) (w : ω) (r : Reader) : Watched σ ω :=
  { s with readers := Function.update s.readers w r }

def load (m : Meter σ) (s : Watched σ ω) (w : ω) : Reader → Counter → Option (Watched σ ω)
  | .loadTail h _, .tail => some (s.finish w (m.size h (m.tail s.machine)))
  | .loadHead t _, .head => some (s.finish w (m.size (m.head s.machine) t))
  | .loadTail _ _, .head => none
  | .loadHead _ _, .tail => none
  | _, .head => some (s.begin w (.loadTail (m.head s.machine) (m.pushed s.machine)))
  | _, .tail =>
    if m.tailFirst then some (s.begin w (.loadHead (m.tail s.machine) (m.popped s.machine)))
    else none

def step (m : Meter σ) (machineStep : σ → α → Option σ) (s : Watched σ ω) :
    Action α ω → Option (Watched σ ω)
  | .act a => (machineStep s.machine a).map fun t => { s with machine := t }
  | .load w c => m.load s w (s.readers w) c

/-- When the second load is the tail's, no more was popped by then than was pushed at the
first; when it is the head's, no more was pushed by then than fits after what was popped at
the first. -/
def Reader.InTime (m : Meter σ) (n : ℕ) (s : σ) : Reader → Counter → Prop
  | .loadTail _ p, .tail => m.popped s ≤ p
  | .loadHead _ q, .head => m.pushed s ≤ q+n
  | _, _ => True

instance decidableReaderInTime (m : Meter σ) (n : ℕ) (s : σ) :
    ∀ r c, Decidable (Reader.InTime m n s r c)
  | .loadTail _ p, .tail => inferInstanceAs (Decidable (m.popped s ≤ p))
  | .loadHead _ q, .head => inferInstanceAs (Decidable (m.pushed s ≤ q+n))
  | .loadTail _ _, .head => isTrue trivial
  | .loadHead _ _, .tail => isTrue trivial
  | .idle, .head => isTrue trivial
  | .idle, .tail => isTrue trivial
  | .returned _, .head => isTrue trivial
  | .returned _, .tail => isTrue trivial

def InTime (m : Meter σ) (n : ℕ) (s : Watched σ ω) : Action α ω → Prop
  | .act _ => True
  | .load w c => (s.readers w).InTime m n s.machine c

instance decidableInTime (m : Meter σ) (n : ℕ) (s : Watched σ ω) :
    ∀ a : Action α ω, Decidable (m.InTime n s a)
  | .act _ => isTrue trivial
  | .load w c => decidableReaderInTime m n s.machine (s.readers w) c

/-- A reader between two readings. -/
def Reader.Resting : Reader → Prop
  | .loadTail _ _ => False
  | .loadHead _ _ => False
  | _ => True

theorem Reader.Resting.inTime {m : Meter σ} {n : ℕ} {s : σ} {r : Reader} (h : r.Resting)
    (c : Counter) : r.InTime m n s c := by
  cases r with
  | loadTail _ _ => exact h.elim
  | loadHead _ _ => exact h.elim
  | _ => cases c <;> trivial

theorem load_cases {m : Meter σ} {s t : Watched σ ω} {w : ω} {c : Counter}
    (h : m.load s w (s.readers w) c = some t) :
    ((s.readers w).Resting ∧
      t = s.begin w (.loadTail (m.head s.machine) (m.pushed s.machine))) ∨
    ((s.readers w).Resting ∧ m.tailFirst = true ∧
      t = s.begin w (.loadHead (m.tail s.machine) (m.popped s.machine))) ∨
    (∃ word p, c = .tail ∧ s.readers w = .loadTail word p ∧
      t = s.finish w (m.size word (m.tail s.machine))) ∨
    ∃ word q, c = .head ∧ s.readers w = .loadHead word q ∧
      t = s.finish w (m.size (m.head s.machine) word) := by
  cases hr : s.readers w with
  | loadTail word p =>
    rw [hr] at h
    cases c with
    | head => cases h
    | tail => exact .inr (.inr (.inl ⟨word,p,rfl,rfl,(Option.some.inj h).symm⟩))
  | loadHead word q =>
    rw [hr] at h
    cases c with
    | head => exact .inr (.inr (.inr ⟨word,q,rfl,rfl,(Option.some.inj h).symm⟩))
    | tail => cases h
  | _ =>
    rw [hr] at h
    cases c with
    | head => exact .inl ⟨trivial,(Option.some.inj h).symm⟩
    | tail =>
      simp only [load] at h
      split_ifs at h with hfirst
      exact .inr (.inl ⟨trivial,hfirst,(Option.some.inj h).symm⟩)

/-! ### What is loaded -/

/-- The words are those of the counts, and the counts are never further apart than `n`. -/
structure Counts (m : Meter σ) (n : ℕ) (s : σ) : Prop where
  head : m.head s = UInt64.ofNat (m.pushed s)
  tail : m.tail s = UInt64.ofNat (m.popped s)
  popped_le : m.popped s ≤ m.pushed s
  pushed_le : m.pushed s ≤ m.popped s+n

/-- What a reader has seen stays true of the past. -/
def Reader.Ok (m : Meter σ) (n : ℕ) (s : σ) : Reader → Prop
  | .loadTail h p => h = UInt64.ofNat p ∧ p ≤ m.pushed s ∧ p ≤ m.popped s+n
  | .loadHead t q => m.tailFirst = true ∧ t = UInt64.ofNat q ∧ q ≤ m.popped s ∧ q ≤ m.pushed s
  | _ => True

theorem Reader.Ok.mono {m : Meter σ} {n : ℕ} {s t : σ} {r : Reader} (h : r.Ok m n s)
    (hpushed : m.pushed s ≤ m.pushed t) (hpopped : m.popped s ≤ m.popped t) : r.Ok m n t := by
  cases r with
  | loadTail word p => exact ⟨h.1,h.2.1.trans hpushed,h.2.2.trans (Nat.add_le_add_right hpopped n)⟩
  | loadHead word q => exact ⟨h.1,h.2.1,h.2.2.1.trans hpopped,h.2.2.2.trans hpushed⟩
  | _ => trivial

structure Inv (m : Meter σ) (n : ℕ) (I : σ → Prop) (s : Watched σ ω) : Prop where
  machine : I s.machine
  readers : ∀ w, (s.readers w).Ok m n s.machine

def SizesLe (n : ℕ) (s : Watched σ ω) : Prop := ∀ k ∈ s.sizes, k.toNat ≤ n

omit [DecidableEq ω] in
theorem sizesLe_append {n : ℕ} {s t : Watched σ ω} {k : UInt64} (h : t.sizes = s.sizes ++ [k]) :
    SizesLe n t ↔ SizesLe n s ∧ k.toNat ≤ n := by
  simp [SizesLe,h,or_imp,forall_and]

theorem step_extends_sizes {m : Meter σ} {machineStep : σ → α → Option σ} {s t : Watched σ ω}
    {a : Action α ω} (hstep : m.step machineStep s a = some t) : s.sizes <+: t.sizes := by
  cases a with
  | act a =>
    obtain ⟨u,-,rfl⟩ := Option.map_eq_some_iff.mp hstep
    exact List.prefix_rfl
  | load w c =>
    rcases load_cases hstep with ⟨-,rfl⟩ | ⟨-,-,rfl⟩ | ⟨_,_,-,-,rfl⟩ | ⟨_,_,-,-,rfl⟩
    · exact List.prefix_rfl
    · exact List.prefix_rfl
    · exact List.prefix_append ..
    · exact List.prefix_append ..

section Run

variable {m : Meter σ} {n : ℕ} {machineStep : σ → α → Option σ} {I B : σ → Prop}
  (hcounts : ∀ s, I s → m.Counts n s)
  (hgrows : ∀ s a t, machineStep s a = some t →
    m.pushed s ≤ m.pushed t ∧ m.popped s ≤ m.popped t)
  (hgood : ∀ s a t, I s → B t → machineStep s a = some t → I t)
  {s t : Watched σ ω} {a : Action α ω}

include hcounts hgrows hgood in
theorem Inv.step (h : Inv m n I s) (hb : B t.machine)
    (hstep : m.step machineStep s a = some t) : Inv m n I t := by
  cases a with
  | act a =>
    obtain ⟨u,hu,rfl⟩ := Option.map_eq_some_iff.mp hstep
    obtain ⟨hpushed,hpopped⟩ := hgrows _ _ _ hu
    exact ⟨hgood _ _ _ h.machine hb hu,fun w => (h.readers w).mono hpushed hpopped⟩
  | load w c =>
    have hc := hcounts _ h.machine
    have hset : ∀ {r : Reader}, r.Ok m n s.machine →
        ∀ w', (Function.update s.readers w r w').Ok m n s.machine := by
      intro r hr w'
      rcases eq_or_ne w' w with rfl | hne
      · rwa [Function.update_self]
      · rw [Function.update_of_ne hne]
        exact h.readers w'
    rcases load_cases hstep with ⟨-,rfl⟩ | ⟨-,hfirst,rfl⟩ | ⟨word,p,-,-,rfl⟩ | ⟨word,q,-,-,rfl⟩
    · exact ⟨h.machine,hset ⟨hc.head,le_rfl,hc.pushed_le⟩⟩
    · exact ⟨h.machine,hset ⟨hfirst,hc.tail,le_rfl,hc.popped_le⟩⟩
    · exact ⟨h.machine,hset trivial⟩
    · exact ⟨h.machine,hset trivial⟩

include hcounts in
/-- What a step returns: nothing, or the size made of a count of each kind. Which of the two
ways they can be out of step depends on the order of the loads. -/
theorem Inv.step_sizes (h : Inv m n I s) (hstep : m.step machineStep s a = some t) :
    t.sizes = s.sizes ∧ m.InTime n s a ∨
    ∃ p q, t.sizes = s.sizes ++ [m.size (UInt64.ofNat p) (UInt64.ofNat q)] ∧
      p ≤ m.pushed s.machine ∧ q ≤ m.popped s.machine ∧
      (m.InTime n s a ↔ q ≤ p ∧ p ≤ q+n) ∧ (m.tailFirst = false → p ≤ q+n) := by
  cases a with
  | act a =>
    obtain ⟨u,-,rfl⟩ := Option.map_eq_some_iff.mp hstep
    exact .inl ⟨rfl,trivial⟩
  | load w c =>
    have hc := hcounts _ h.machine
    rcases load_cases hstep with ⟨hrest,rfl⟩ | ⟨hrest,-,rfl⟩ | ⟨word,p,rfl,hr,rfl⟩ |
      ⟨word,q,rfl,hr,rfl⟩
    · exact .inl ⟨rfl,hrest.inTime c⟩
    · exact .inl ⟨rfl,hrest.inTime c⟩
    · have hok := h.readers w
      rw [hr] at hok
      obtain ⟨hword,hp,hfit⟩ := hok
      refine .inr ⟨p,m.popped s.machine,by rw [hword,hc.tail]; rfl,hp,le_rfl,?_,fun _ => hfit⟩
      have hiff : m.InTime n s (.load w .tail : Action α ω) ↔ m.popped s.machine ≤ p := by
        simp only [InTime,hr,Reader.InTime]
      exact hiff.trans (and_iff_left hfit).symm
    · have hok := h.readers w
      rw [hr] at hok
      obtain ⟨hfirst,hword,hq,hle⟩ := hok
      refine .inr ⟨m.pushed s.machine,q,by rw [hword,hc.head]; rfl,le_rfl,hq,?_,?_⟩
      · have hiff : m.InTime n s (.load w .head : Action α ω) ↔ m.pushed s.machine ≤ q+n := by
          simp only [InTime,hr,Reader.InTime]
        exact hiff.trans (and_iff_right hle).symm
      · intro hnever
        rw [hfirst] at hnever
        cases hnever

variable (hpast : ∀ s a t, machineStep s a = some t → B t → B s)

include hpast in
omit hgrows in
theorem bound_past (hstep : m.step machineStep s a = some t) (hb : B t.machine) :
    B s.machine := by
  cases a with
  | act a =>
    obtain ⟨u,hu,rfl⟩ := Option.map_eq_some_iff.mp hstep
    exact hpast _ _ _ hu hb
  | load w c =>
    rcases load_cases hstep with ⟨-,rfl⟩ | ⟨-,-,rfl⟩ | ⟨_,_,-,-,rfl⟩ | ⟨_,_,-,-,rfl⟩ <;> exact hb

include hcounts hgrows hgood hpast

/-- The rule for a run: every pair of counts that a load may put together gives a size of at
most `n`. -/
theorem admitted_sizesLe {admitted : Watched σ ω → Action α ω → Prop} {s₀ : σ} (h₀ : I s₀)
    (hvalue : ∀ (s : Watched σ ω) (a : Action α ω) p q, I s.machine → B s.machine →
      admitted s a → p ≤ m.pushed s.machine → q ≤ m.popped s.machine →
      (m.InTime n s a ↔ q ≤ p ∧ p ≤ q+n) → (m.tailFirst = false → p ≤ q+n) →
      (m.size (UInt64.ofNat p) (UInt64.ofNat q)).toNat ≤ n)
    (h : Transition.ReachableBy (m.step machineStep) admitted (watch s₀) s)
    (hb : B s.machine) : SizesLe n s := by
  have hboth : Inv m n I s ∧ SizesLe n s := by
    refine h.invariant_of_bound (P := fun s => Inv m n I s ∧ SizesLe n s)
      (fun s => B s.machine) ?_
      (fun s a t => bound_past hpast) ?_ hb
    · exact ⟨⟨h₀,fun _ => trivial⟩,by simp [SizesLe,watch]⟩
    · rintro s a t ⟨hinv,hle⟩ ht hadmit hstep
      refine ⟨hinv.step hcounts hgrows hgood ht hstep,?_⟩
      rcases hinv.step_sizes hcounts hstep with ⟨hsizes,-⟩ | ⟨p,q,hsizes,hp,hq,htime,hfirst⟩
      · rwa [SizesLe,hsizes]
      · exact (sizesLe_append hsizes).mpr
          ⟨hle,hvalue s a p q hinv.machine (bound_past hpast hstep ht) hadmit hp hq htime hfirst⟩
  exact hboth.2

/-- Where other pairs give a larger size, the sizes of a run tell whether its loads were in
time. -/
theorem sizesLe_iff {s₀ : σ} (h₀ : I s₀)
    (hvalue : ∀ (s : σ) p q, I s → B s → p ≤ m.pushed s → q ≤ m.popped s →
      ((m.size (UInt64.ofNat p) (UInt64.ofNat q)).toNat ≤ n ↔ q ≤ p ∧ p ≤ q+n))
    {as : List (Action α ω)} (hrun : Transition.run (m.step machineStep) (watch s₀) as = some s)
    (hb : B s.machine) :
    SizesLe n s ↔ Transition.Admits (m.step machineStep) (m.InTime n) (watch s₀) as := by
  refine Transition.admits_iff_of_bound (P := fun s => Inv m n I s ∧ SizesLe n s)
    (fun s => B s.machine) (fun s a t => bound_past hpast) ?_ (fun s hs => hs.2) ?_ ?_ ?_
    hrun hb
  · rintro s a t ⟨hinv,hle⟩ ht htime hstep
    refine ⟨hinv.step hcounts hgrows hgood ht hstep,?_⟩
    rcases hinv.step_sizes hcounts hstep with ⟨hsizes,-⟩ | ⟨p,q,hsizes,hp,hq,hiff,-⟩
    · rwa [SizesLe,hsizes]
    · have hbs := bound_past hpast hstep ht
      have hvalue := hvalue _ p q hinv.machine hbs hp hq
      exact (sizesLe_append hsizes).mpr ⟨hle,hvalue.mpr (hiff.mp htime)⟩
  · rintro s a t ⟨hinv,-⟩ ht hlate hstep hle
    rcases hinv.step_sizes hcounts hstep with ⟨-,htime⟩ | ⟨p,q,hsizes,hp,hq,hiff,-⟩
    · exact hlate htime
    · have hbs := bound_past hpast hstep ht
      have hvalue := hvalue _ p q hinv.machine hbs hp hq
      exact hlate (hiff.mpr (hvalue.mp ((sizesLe_append hsizes).mp hle).2))
  · exact fun s a t hstep hle k hk => hle k ((step_extends_sizes hstep).subset hk)
  · exact ⟨⟨h₀,fun _ => trivial⟩,by simp [SizesLe,watch]⟩

end Run

end Meter
end Marketlib
