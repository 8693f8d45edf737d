import Mathlib.Algebra.Order.Group.Multiset
import Mathlib.Tactic.Abel
import Mathlib.Tactic.Common
import Marketlib.Effects

/-! Programs that obtain, use and release resources and can end with an exception.
`Spec F P m Q E` says what `m` makes of the resources `P` in whatever company: `Q a` are left when
it returns `a`, and what `E e` allows when it throws `e`. Of what is not there `m` uses and
releases only what `F` allows. -/

namespace Marketlib

/-- A resource is a kind and the moment it was obtained. -/
structure Ledger (κ : Type) where
  clock : ℕ
  live : Multiset (κ × ℕ)
  /-- What was released or used without being there. -/
  faults : List (κ × ℕ)
  distinct : (live.map Prod.snd).Nodup
  earlier : ∀ r ∈ live, r.2 < clock

namespace Ledger

variable {κ ε α β : Type}

def empty : Ledger κ := ⟨0,0,[],by simp,by simp⟩

def tick (l : Ledger κ) : Ledger κ :=
  { l with clock := l.clock+1, earlier := fun r hr => Nat.lt_succ_of_lt (l.earlier r hr) }

/-- A new resource. -/
def insert (l : Ledger κ) (k : κ) : Ledger κ where
  clock := l.clock+1
  live := (k,l.clock) ::ₘ l.live
  faults := l.faults
  distinct := by
    rw [Multiset.map_cons,Multiset.nodup_cons]
    refine ⟨fun hmem => ?_,l.distinct⟩
    obtain ⟨r,hr,heq⟩ := Multiset.mem_map.mp hmem
    exact absurd heq (l.earlier r hr).ne
  earlier r hr := by
    obtain rfl | hr := Multiset.mem_cons.mp hr
    · exact Nat.lt_succ_self _
    · exact Nat.lt_succ_of_lt (l.earlier r hr)

def fault (l : Ledger κ) (r : κ × ℕ) : Ledger κ := { l with faults := r :: l.faults }

section

variable [DecidableEq κ]

def erase (l : Ledger κ) (r : κ × ℕ) : Ledger κ :=
  { l with
    live := l.live.erase r
    distinct := Multiset.nodup_of_le (Multiset.map_le_map (Multiset.erase_le r l.live)) l.distinct
    earlier := fun q hq => l.earlier q (Multiset.mem_of_mem_erase hq) }

/-- A resource becomes one of kind `k`. -/
def turn (l : Ledger κ) (r : κ × ℕ) (k : κ) (h : r ∈ l.live) : Ledger κ :=
  { l with
    live := (k,r.2) ::ₘ l.live.erase r
    distinct := by
      have heq : (l.live.map Prod.snd) = ((k,r.2) ::ₘ l.live.erase r).map Prod.snd := by
        rw [Multiset.map_cons,← Multiset.map_cons Prod.snd r,Multiset.cons_erase h]
      exact heq ▸ l.distinct
    earlier := fun q hq => by
      obtain rfl | hq := Multiset.mem_cons.mp hq
      · exact l.earlier r h
      · exact l.earlier q (Multiset.mem_of_mem_erase hq) }

end

abbrev Prog (κ ε α : Type) := ExceptT ε (StateM (Ledger κ)) α

/-- Null counts as nothing. -/
def owned (k : κ) : Option ℕ → Multiset (κ × ℕ)
  | none => 0
  | some n => {(k,n)}

/-- An attempt to obtain a resource; `grants` says at which moments one succeeds. -/
def acquire (grants : ℕ → Bool) (k : κ) : Prog κ ε (Option ℕ) := fun l =>
  if grants l.clock then (.ok (some l.clock),l.insert k) else (.ok none,l.tick)

section

variable [DecidableEq κ]

def release (k : κ) : Option ℕ → Prog κ ε Unit
  | none => pure ()
  | some n => fun l => (.ok (),if (k,n) ∈ l.live then l.erase (k,n) else l.fault (k,n))

/-- An attempt to turn a resource of kind `k` into one of kind `k'`; `grants` says of which
resources one succeeds. -/
def convert (grants : ℕ → Bool) (k k' : κ) : Option ℕ → Prog κ ε Bool
  | none => pure false
  | some n => fun l =>
    if h : (k,n) ∈ l.live then
      if grants n then (.ok true,l.turn (k,n) k' h) else (.ok false,l)
    else (.ok false,l.fault (k,n))

/-- A resource of kind `k'` becomes one of kind `k` again. -/
def revert (k k' : κ) : Option ℕ → Prog κ ε Unit
  | none => pure ()
  | some n => fun l => (.ok (),
    if h : (k',n) ∈ l.live then l.turn (k',n) k h else l.fault (k',n))

/-- A resource of kind `k` is read or written. -/
def use (k : κ) : Option ℕ → Prog κ ε Unit
  | none => pure ()
  | some n => fun l => (.ok (),if (k,n) ∈ l.live then l else l.fault (k,n))

end

/-- A call that throws at the moments `throws` says. -/
def mayThrow (throws : ℕ → Bool) (e : ε) : Prog κ ε Unit := fun l =>
  (if throws l.clock then .error e else .ok (),l.tick)

/-- Leave a scope: `cleanup` runs however `m` ends. -/
def leaving (m : Prog κ ε α) (cleanup : Prog κ ε Unit) : Prog κ ε α := fun l =>
  ((m l).1,(cleanup (m l).2).2)

/-- Do it for one after the other. -/
def each (f : α → Prog κ ε Unit) : List α → Prog κ ε Unit
  | [] => pure ()
  | a :: as => do
    f a
    each f as

/-- Collect what it gives for one after the other. -/
def collect (f : α → Prog κ ε β) : List α → Prog κ ε (List β)
  | [] => pure []
  | a :: as => do
    let b ← f a
    let bs ← collect f as
    pure (b :: bs)

/-- What may be owned at the end, by how a program ends. -/
def Outcome (Q : α → Multiset (κ × ℕ) → Prop) (E : ε → Multiset (κ × ℕ) → Prop) :
    Except ε α → Multiset (κ × ℕ) → Prop
  | .ok a => Q a
  | .error e => E e

/-- The faults after some others, the later ones first, all of them such as `F` allows. -/
def Allowed (F : κ × ℕ → Prop) (faults faults' : List (κ × ℕ)) : Prop :=
  ∃ added, faults' = added++faults ∧ ∀ r ∈ added, F r

def Spec (F : κ × ℕ → Prop) (P : Multiset (κ × ℕ)) (m : Prog κ ε α)
    (Q : α → Multiset (κ × ℕ) → Prop) (E : ε → Multiset (κ × ℕ) → Prop) : Prop :=
  ∀ l frame, l.live = P+frame → ∃ held, Outcome Q E (m l).1 held ∧
    (m l).2.live = held+frame ∧ Allowed F l.faults (m l).2.faults

/-- Nothing is thrown. -/
def Never (_ : ε) (_ : Multiset (κ × ℕ)) : Prop := False

/-- Nothing is owned. -/
def Nothing (_ : α) (held : Multiset (κ × ℕ)) : Prop := held = 0

/-- `own a held` for each, side by side. -/
def OwnsAll (own : α → Multiset (κ × ℕ) → Prop) : List α → Multiset (κ × ℕ) → Prop
  | [],held => held = 0
  | a :: as,held => ∃ held₁ held₂, own a held₁ ∧ OwnsAll own as held₂ ∧ held = held₁+held₂

def Owned (k : κ) (o : Option ℕ) (held : Multiset (κ × ℕ)) : Prop := held = owned k o

/-- Obtained, or refused at some moment. -/
def Obtained (grants : ℕ → Bool) (k : κ) (o : Option ℕ) (held : Multiset (κ × ℕ)) : Prop :=
  held = owned k o ∧ (o = none → ∃ t, grants t = false)

/-- Turned into one of kind `k'`, or refused to be. -/
def Turned (grants : ℕ → Bool) (k k' : κ) (o : Option ℕ) (held : Multiset (κ × ℕ)) : Prop :=
  held = owned k' o ∨ held = owned k o ∧ ∀ n ∈ o, grants n = false

/-- It is there, or `F` allows to use it all the same. -/
def Usable (F : κ × ℕ → Prop) (k : κ) (P : Multiset (κ × ℕ)) (o : Option ℕ) : Prop :=
  ∀ n ∈ o, (k,n) ∈ P ∨ F (k,n)

/-- Nothing is obtained or lost, however the program ends, and only `T` is thrown. -/
def Neutral (F : κ × ℕ → Prop) (T : ε → Prop) (P : Multiset (κ × ℕ)) (m : Prog κ ε α) : Prop :=
  Spec F P m (fun _ held => held = P) fun e held => T e ∧ held = P

/-! ### Rules -/

variable {P R : Multiset (κ × ℕ)} {m : Prog κ ε α} {Q Q' : α → Multiset (κ × ℕ) → Prop}
  {E E' : ε → Multiset (κ × ℕ) → Prop} {F : κ × ℕ → Prop} {T : ε → Prop}

theorem Allowed.refl (faults : List (κ × ℕ)) : Allowed F faults faults :=
  ⟨[],rfl,by simp⟩

theorem Allowed.trans {faults faults' faults'' : List (κ × ℕ)} (h : Allowed F faults faults')
    (h' : Allowed F faults' faults'') : Allowed F faults faults'' := by
  obtain ⟨added,rfl,hadded⟩ := h
  obtain ⟨added',rfl,hadded'⟩ := h'
  refine ⟨added'++added,(List.append_assoc _ _ _).symm,fun r hr => ?_⟩
  exact (List.mem_append.mp hr).elim (hadded' r) (hadded r)

theorem Allowed.fault {l : Ledger κ} {r : κ × ℕ} (h : F r) :
    Allowed F l.faults (l.fault r).faults :=
  ⟨[r],rfl,fun _ hr => List.mem_singleton.mp hr ▸ h⟩

theorem Outcome.mono {r : Except ε α} {held held' : Multiset (κ × ℕ)} (h : Outcome Q E r held)
    (hQ : ∀ a, Q a held → Q' a held') (hE : ∀ e, E e held → E' e held') :
    Outcome Q' E' r held' := by
  cases r with
  | ok a => exact hQ a h
  | error e => exact hE e h

theorem Spec.mono (h : Spec F P m Q E) (hQ : ∀ a held, Q a held → Q' a held)
    (hE : ∀ e held, E e held → E' e held) : Spec F P m Q' E' := by
  intro l frame hl
  obtain ⟨held,hheld,hlive,hfaults⟩ := h l frame hl
  exact ⟨held,hheld.mono (fun a => hQ a held) fun e => hE e held,hlive,hfaults⟩

theorem Spec.never (h : Spec F P m Q Never) : Spec F P m Q E :=
  h.mono (fun _ _ => id) fun _ _ hnever => hnever.elim

theorem spec_pure (a : α) (h : Q a P) : Spec F P (pure a : Prog κ ε α) Q E :=
  fun l _ hl => ⟨P,h,hl,.refl l.faults⟩

/-- Go on with what the first part has left, beside what it did not own. -/
theorem Spec.bind {f : α → Prog κ ε β} {Q'' : β → Multiset (κ × ℕ) → Prop} (h : Spec F P m Q E)
    (hE : ∀ e held, E e held → E' e (held+R))
    (hf : ∀ a held, Q a held → Spec F (held+R) (f a) Q'' E') : Spec F (P+R) (m >>= f) Q'' E' := by
  intro l frame hl
  obtain ⟨held,hheld,hlive,hfaults⟩ := h l (R+frame) (by rw [hl]; abel)
  rw [Effects.bind_apply]
  cases hr : (m l).1 with
  | ok a =>
    rw [hr] at hheld
    obtain ⟨held',hheld',hlive',hfaults'⟩ := hf a held hheld (m l).2 frame (by rw [hlive]; abel)
    exact ⟨held',hheld',hlive',hfaults.trans hfaults'⟩
  | error e =>
    rw [hr] at hheld
    exact ⟨held+R,hE e held hheld,hlive.trans (by abel),hfaults⟩

/-- The first part needs all that there is. -/
theorem Spec.bind_all {f : α → Prog κ ε β} {Q'' : β → Multiset (κ × ℕ) → Prop} (h : Spec F P m Q E)
    (hf : ∀ a held, Q a held → Spec F held (f a) Q'' E) : Spec F P (m >>= f) Q'' E := by
  have hbind : Spec F (P+0) (m >>= f) Q'' E := h.bind (fun _ _ he => by rwa [add_zero])
    fun a held ha => by rw [add_zero]; exact hf a held ha
  rwa [add_zero] at hbind

/-- The first part throws nothing. -/
theorem Spec.bind_quiet {f : α → Prog κ ε β} {Q'' : β → Multiset (κ × ℕ) → Prop}
    (h : Spec F P m Q Never) (hf : ∀ a held, Q a held → Spec F (held+R) (f a) Q'' E') :
    Spec F (P+R) (m >>= f) Q'' E' := h.bind (fun _ _ he => he.elim) hf

/-- The first part needs nothing and throws nothing. -/
theorem Spec.bind_none {f : α → Prog κ ε β} {Q'' : β → Multiset (κ × ℕ) → Prop}
    (h : Spec F 0 m Q Never) (hf : ∀ a held, Q a held → Spec F (held+R) (f a) Q'' E') :
    Spec F R (m >>= f) Q'' E' := by
  have hbind : Spec F (0+R) (m >>= f) Q'' E' := h.bind_quiet hf
  rwa [zero_add] at hbind

/-- What a program does not own stays as it is. -/
theorem Spec.frame (h : Spec F P m Q E) (R : Multiset (κ × ℕ)) :
    Spec F (P+R) m (fun a held => ∃ held', Q a held' ∧ held = held'+R)
      fun e held => ∃ held', E e held' ∧ held = held'+R := by
  intro l frame hl
  obtain ⟨held,hheld,hlive,hfaults⟩ := h l (R+frame) (by rw [hl]; abel)
  exact ⟨held+R,hheld.mono (fun _ h => ⟨held,h,rfl⟩) (fun _ h => ⟨held,h,rfl⟩),
    by rw [hlive]; abel,hfaults⟩

/-- What the scope owns is gone when it is left, however that happens. -/
theorem Spec.leaving {cleanup : Prog κ ε Unit}
    (h : Spec F P m (fun a held => ∃ held' gone, held = held'+gone ∧ Q a held' ∧
        Spec F gone cleanup Nothing Never)
      fun e held => ∃ held' gone, held = held'+gone ∧ E e held' ∧
        Spec F gone cleanup Nothing Never) : Spec F P (leaving m cleanup) Q E := by
  intro l frame hl
  obtain ⟨held,hheld,hlive,hfaults⟩ := h l frame hl
  have hrest : ∃ held' gone, held = held'+gone ∧ Outcome Q E (m l).1 held' ∧
      Spec F gone cleanup Nothing Never := by
    cases hr : (m l).1 with
    | ok a =>
      rw [hr] at hheld
      exact hheld
    | error e =>
      rw [hr] at hheld
      exact hheld
  obtain ⟨held',gone,rfl,hheld',hcleanup⟩ := hrest
  obtain ⟨none',hnone,hlive',hfaults'⟩ :=
    hcleanup (m l).2 (held'+frame) (by rw [hlive]; abel)
  have hzero : none' = 0 := by
    cases hr : (cleanup (m l).2).1 with
    | ok a =>
      rw [hr] at hnone
      exact hnone
    | error e =>
      rw [hr] at hnone
      exact hnone.elim
  rw [hzero,zero_add] at hlive'
  exact ⟨held',hheld',hlive',hfaults.trans hfaults'⟩

/-- Two parts that own different things, and of which the second throws nothing. -/
theorem Spec.beside (h : Spec F P m Q Never) (R : Multiset (κ × ℕ)) :
    Spec F (P+R) m (fun a held => ∃ held', Q a held' ∧ held = held'+R) Never :=
  (h.frame R).mono (fun _ _ => id) fun _ _ hnever => hnever.elim fun _ h => h.1

theorem spec_each {own own' : α → Multiset (κ × ℕ) → Prop} {f : α → Prog κ ε Unit} {as : List α}
    (hf : ∀ a held, own a held → Spec F held (f a) (fun _ => own' a) Never)
    (h : OwnsAll own as P) : Spec F P (each f as) (fun _ => OwnsAll own' as) Never := by
  induction as generalizing P with
  | nil => exact spec_pure () h
  | cons a as ih =>
    obtain ⟨held₁,held₂,ha,has,rfl⟩ := h
    refine Spec.bind_quiet (hf a held₁ ha) fun _ held₁' ha' => ?_
    rw [add_comm]
    refine ((ih has).beside held₁').mono (fun _ held h => ?_) fun _ _ => id
    obtain ⟨held',hrest,rfl⟩ := h
    exact ⟨held₁',held',ha',hrest,add_comm _ _⟩

theorem OwnsAll.imp {own own' : α → Multiset (κ × ℕ) → Prop} {as : List α}
    {held : Multiset (κ × ℕ)} (h : OwnsAll own as held)
    (himp : ∀ a ∈ as, ∀ held, own a held → own' a held) : OwnsAll own' as held := by
  induction as generalizing held with
  | nil => exact h
  | cons a as ih =>
    obtain ⟨held₁,held₂,ha,has,rfl⟩ := h
    exact ⟨held₁,held₂,himp a List.mem_cons_self held₁ ha,
      ih has fun b hb => himp b (List.mem_cons_of_mem _ hb),rfl⟩

/-- The second components alone. -/
theorem OwnsAll.of_zip {own : β → Multiset (κ × ℕ) → Prop} {as : List α} {bs : List β}
    {held : Multiset (κ × ℕ)} (h : OwnsAll (fun p => own p.2) (as.zip bs) held)
    (hlength : bs.length = as.length) : OwnsAll own bs held := by
  induction as generalizing bs held with
  | nil =>
    rw [List.length_eq_zero_iff.mp hlength]
    exact h
  | cons a as ih =>
    cases bs with
    | nil => cases hlength
    | cons b bs =>
      obtain ⟨held₁,held₂,hb,hbs,rfl⟩ := h
      exact ⟨held₁,held₂,hb,ih hbs (Nat.succ.inj hlength),rfl⟩

/-- Each owns resources of the kinds that `kinds` says. -/
theorem OwnsAll.kinds (kinds : α → Multiset κ) {own : α → Multiset (κ × ℕ) → Prop} {as : List α}
    {held : Multiset (κ × ℕ)} (h : OwnsAll own as held)
    (hkinds : ∀ a held, own a held → held.map Prod.fst = kinds a) :
    held.map Prod.fst = (as.map kinds).sum := by
  induction as generalizing held with
  | nil =>
    rw [show held = 0 from h]
    rfl
  | cons a as ih =>
    obtain ⟨held₁,held₂,ha,has,rfl⟩ := h
    rw [Multiset.map_add,hkinds a held₁ ha,ih has,List.map_cons,List.sum_cons]

/-- What each owns is owned together. -/
theorem OwnsAll.le {own : α → Multiset (κ × ℕ) → Prop} {as : List α} {held : Multiset (κ × ℕ)}
    (h : OwnsAll own as held) : ∀ a ∈ as, ∃ held' ≤ held, own a held' := by
  induction as generalizing held with
  | nil => exact nofun
  | cons a as ih =>
    obtain ⟨held₁,held₂,ha,has,rfl⟩ := h
    intro b hb
    obtain rfl | hb := List.mem_cons.mp hb
    · exact ⟨held₁,Multiset.le_add_right held₁ held₂,ha⟩
    · obtain ⟨held',hle,hown⟩ := ih has b hb
      exact ⟨held',hle.trans (Multiset.le_add_left held₂ held₁),hown⟩

theorem OwnsAll.eq_zero {as : List α} {held : Multiset (κ × ℕ)}
    (h : OwnsAll (fun _ held => held = 0) as held) : held = 0 := by
  induction as generalizing held with
  | nil => exact h
  | cons a as ih =>
    obtain ⟨held₁,held₂,rfl,has,rfl⟩ := h
    rw [ih has,zero_add]

/-- Released one after the other, nothing is left. -/
theorem spec_each_nothing {own : α → Multiset (κ × ℕ) → Prop} {f : α → Prog κ ε Unit}
    {as : List α} (hf : ∀ a held, own a held → Spec F held (f a) Nothing Never)
    (h : OwnsAll own as P) : Spec F P (each f as) Nothing Never := by
  have heach : Spec F P (each f as) (fun _ => OwnsAll (fun _ held => held = 0) as) Never :=
    spec_each hf h
  exact heach.mono (fun _ _ h => h.eq_zero) fun _ _ => id

theorem spec_collect {own : α → β → Multiset (κ × ℕ) → Prop} {f : α → Prog κ ε β}
    (hf : ∀ a, Spec F 0 (f a) (own a) Never) (as : List α) :
    Spec F 0 (collect f as) (fun bs held => bs.length = as.length ∧
      OwnsAll (fun p => own p.1 p.2) (as.zip bs) held) Never := by
  induction as with
  | nil => exact spec_pure [] ⟨rfl,rfl⟩
  | cons a as ih =>
    refine (hf a).bind_all fun b held hb => ?_
    refine Spec.bind_none ih ?_
    rintro bs held' ⟨hlength,hbs⟩
    exact spec_pure (b :: bs) ⟨by simp [hlength],held,held',hb,hbs,add_comm _ _⟩

/-! ### Programs that leave everything as it is -/

theorem neutral_pure (a : α) : Neutral F T P (pure a : Prog κ ε α) := spec_pure a rfl

theorem Neutral.bind {f : α → Prog κ ε β} (h : Neutral F T P m) (hf : ∀ a, Neutral F T P (f a)) :
    Neutral F T P (m >>= f) := by
  refine Spec.bind_all h fun a held ha => ?_
  rw [ha]
  exact hf a

/-- Go on behind what throws nothing. -/
theorem Neutral.andThen {f : α → Prog κ ε β} {Q'' : β → Multiset (κ × ℕ) → Prop}
    (h : Neutral F (fun _ => False) P m) (hf : ∀ a, Spec F P (f a) Q'' E) :
    Spec F P (m >>= f) Q'' E := by
  refine Spec.bind_all (h.mono (fun _ _ => id) fun _ _ hfalse => hfalse.1.elim) ?_
  rintro a _ rfl
  exact hf a

theorem neutral_each {f : α → Prog κ ε Unit} {as : List α} (hf : ∀ a ∈ as, Neutral F T P (f a)) :
    Neutral F T P (each f as) := by
  induction as with
  | nil => exact neutral_pure ()
  | cons a as ih =>
    exact (hf a List.mem_cons_self).bind fun _ =>
      ih fun b hb => hf b (List.mem_cons_of_mem _ hb)

/-! ### The operations -/

theorem spec_acquire (grants : ℕ → Bool) (k : κ) :
    Spec F 0 (acquire grants k : Prog κ ε (Option ℕ)) (Obtained grants k) E := by
  intro l frame hl
  rw [zero_add] at hl
  unfold acquire
  split_ifs with hgrant
  · refine ⟨{(k,l.clock)},⟨rfl,nofun⟩,?_,.refl l.faults⟩
    rw [Multiset.singleton_add,← hl]
    rfl
  · refine ⟨0,⟨rfl,fun _ => ⟨l.clock,by simpa using hgrant⟩⟩,?_,.refl l.faults⟩
    rw [zero_add,← hl]
    rfl

theorem neutral_mayThrow (throws : ℕ → Bool) {e : ε} (he : T e) :
    Neutral F T P (mayThrow throws e : Prog κ ε Unit) := by
  intro l frame hl
  refine ⟨P,?_,hl,.refl l.faults⟩
  unfold mayThrow
  cases throws l.clock
  · rfl
  · exact ⟨he,rfl⟩

/-- Two resources that are there were obtained at different moments. -/
theorem not_mem_of_owned {l : Ledger κ} {k k' : κ} {n : ℕ} {frame : Multiset (κ × ℕ)}
    (hl : l.live = owned k (some n)+frame) (hne : k' ≠ k) : (k',n) ∉ l.live := by
  intro hmem
  have hframe : (k',n) ∈ frame := by
    rw [hl,owned,Multiset.singleton_add,Multiset.mem_cons] at hmem
    exact hmem.resolve_left fun h => hne (Prod.mk.inj h).1
  have hdistinct := l.distinct
  rw [hl,owned,Multiset.singleton_add,Multiset.map_cons,Multiset.nodup_cons] at hdistinct
  exact hdistinct.1 (Multiset.mem_map.mpr ⟨_,hframe,rfl⟩)

theorem Usable.mono {k : κ} {P' : Multiset (κ × ℕ)} {o : Option ℕ} (h : Usable F k P o)
    (hle : P ≤ P') : Usable F k P' o :=
  fun n hn => (h n hn).imp_left fun hmem => Multiset.mem_of_le hle hmem

theorem usable_owned {k : κ} {o : Option ℕ} : Usable F k (owned k o) o := by
  rintro n rfl
  exact Or.inl (Multiset.mem_singleton_self _)

/-- What was refused to be turned is used all the same. -/
theorem Turned.usable {grants : ℕ → Bool} {k k' : κ} {o : Option ℕ} {held : Multiset (κ × ℕ)}
    (h : Turned grants k k' o held) (hF : ∀ n, grants n = false → F (k',n)) :
    Usable F k' held o := by
  obtain rfl | ⟨rfl,hrefused⟩ := h
  · exact usable_owned
  · exact fun n hn => Or.inr (hF n (hrefused n hn))

variable [DecidableEq κ]

theorem spec_use {k : κ} {o : Option ℕ} (h : Usable F k P o) :
    Spec F P (use k o : Prog κ ε Unit) (fun _ held => held = P) E := by
  cases o with
  | none => exact spec_pure () rfl
  | some n =>
    intro l frame hl
    simp only [use]
    split_ifs with hmem
    · exact ⟨P,rfl,hl,.refl l.faults⟩
    · refine ⟨P,rfl,hl,.fault ((h n rfl).resolve_left fun hP => hmem ?_)⟩
      rw [hl]
      exact Multiset.mem_add.mpr (Or.inl hP)

theorem neutral_use {k : κ} {o : Option ℕ} (h : Usable F k P o) :
    Neutral F T P (use k o : Prog κ ε Unit) := spec_use h

theorem spec_release (k : κ) (o : Option ℕ) :
    Spec F (owned k o) (release k o : Prog κ ε Unit) Nothing E := by
  cases o with
  | none => exact spec_pure () rfl
  | some n =>
    intro l frame hl
    have hmem : (k,n) ∈ l.live := by simp [hl,owned]
    simp only [release,if_pos hmem]
    refine ⟨0,rfl,?_,.refl l.faults⟩
    simp only [erase]
    rw [hl,owned,Multiset.singleton_add,Multiset.erase_cons_head,zero_add]

/-- A resource that lives as long as a scope does. -/
theorem neutral_scope {grants : ℕ → Bool} {k : κ} {body : Option ℕ → Prog κ ε α}
    (h : ∀ o, Neutral F T (owned k o+P) (body o)) :
    Neutral F T P (acquire grants k >>= fun o => leaving (body o) (release k o)) := by
  refine Spec.bind_none (spec_acquire grants k) ?_
  rintro o - ⟨rfl,-⟩
  refine Spec.leaving ((h o).mono ?_ ?_)
  · rintro - - rfl
    exact ⟨P,owned k o,add_comm _ _,rfl,spec_release k o⟩
  · rintro e - ⟨he,rfl⟩
    exact ⟨P,owned k o,add_comm _ _,⟨he,rfl⟩,spec_release k o⟩

theorem live_turn {l : Ledger κ} {k k' : κ} {n : ℕ} {frame : Multiset (κ × ℕ)}
    (hl : l.live = owned k (some n)+frame) (h : (k,n) ∈ l.live) :
    (l.turn (k,n) k' h).live = owned k' (some n)+frame := by
  simp only [turn]
  rw [hl,owned,owned,Multiset.singleton_add,Multiset.erase_cons_head,Multiset.singleton_add]

theorem spec_convert (grants : ℕ → Bool) (k k' : κ) (o : Option ℕ) :
    Spec F (owned k o) (convert grants k k' o : Prog κ ε Bool)
      (fun _ => Turned grants k k' o) E := by
  cases o with
  | none => exact spec_pure false (Or.inl rfl)
  | some n =>
    intro l frame hl
    have hmem : (k,n) ∈ l.live := by simp [hl,owned]
    simp only [convert,dif_pos hmem]
    split_ifs with hgrant
    · exact ⟨owned k' (some n),Or.inl rfl,live_turn hl hmem,.refl l.faults⟩
    · refine ⟨owned k (some n),Or.inr ⟨rfl,fun q hq => ?_⟩,hl,.refl l.faults⟩
      obtain rfl := Option.some.inj hq
      simpa using hgrant

/-- What was refused to be turned is turned back all the same. -/
theorem spec_revert {grants : ℕ → Bool} {k k' : κ} (hne : k' ≠ k) {o : Option ℕ}
    (h : Turned grants k k' o P) (hF : ∀ n, grants n = false → F (k',n)) :
    Spec F P (revert k k' o : Prog κ ε Unit) (fun _ => Owned k o) E := by
  cases o with
  | none => exact spec_pure () (h.elim id And.left)
  | some n =>
    intro l frame hl
    obtain rfl | ⟨rfl,hrefused⟩ := h
    · have hmem : (k',n) ∈ l.live := by simp [hl,owned]
      simp only [revert,dif_pos hmem]
      exact ⟨owned k (some n),rfl,live_turn hl hmem,.refl l.faults⟩
    · have hnot : (k',n) ∉ l.live := not_mem_of_owned hl hne
      simp only [revert,dif_neg hnot]
      exact ⟨owned k (some n),rfl,hl,.fault (hF n (hrefused n rfl))⟩

end Ledger
end Marketlib
