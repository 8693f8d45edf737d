import Mathlib.Data.Finset.Card
import Mathlib.Data.Finset.Range
import Mathlib.Data.UInt
import Mathlib.Tactic.Common
import Marketlib.LinkedChain
import Marketlib.Transition

/-! The fixed-size pool. A pointer is the position of a slot, null is `none`. Reading `next` from
a slot that holds an object, or any access past the pool, is undefined and has no result. -/

namespace Marketlib

open LinkedChain

/-- The union's member written last. -/
inductive PoolAllocator.Slot (β : Type)
  | storage (bytes : β)
  | next (ptr : Option ℕ)

structure PoolAllocator (n : UInt64) (β : Type) where
  pool : Vector (PoolAllocator.Slot β) n.toNat
  freeHead : Option ℕ
  available : UInt64

namespace PoolAllocator

variable {n : UInt64} {β : Type}

/-- The loop of the constructor, `k` turns. -/
def linkSlots (pool : Vector (Slot β) n.toNat) (k : ℕ) : Vector (Slot β) n.toNat :=
  (List.range k).foldl (fun pool i => pool.setIfInBounds i (.next (some (i+1)))) pool

/-- The constructor, over whatever the memory holds. -/
def init (memory : Vector (Slot β) n.toNat) : PoolAllocator n β where
  pool := (linkSlots memory (n-1).toNat).setIfInBounds (n-1).toNat (.next none)
  freeHead := some 0
  available := n

/-- `slot->next`. -/
def nextAt (s : PoolAllocator n β) (slot : ℕ) : Option (Option ℕ) :=
  match s.pool[slot]? with
  | some (.next ptr) => some ptr
  | _ => none

def allocate (s : PoolAllocator n β) : Option (Option ℕ × PoolAllocator n β) :=
  match s.freeHead with
  | none => some (none,s)
  | some slot => (s.nextAt slot).map fun next =>
      (some slot,{ s with freeHead := next, available := s.available-1 })

/-- `deallocate`, where the object's destructor has returned. -/
def deallocate (s : PoolAllocator n β) (ptr : ℕ) : Option (PoolAllocator n β) :=
  if ptr < n.toNat then
    some { pool := s.pool.setIfInBounds ptr (.next s.freeHead), freeHead := some ptr,
           available := s.available+1 }
  else none

/-- The client writes to the object at `ptr`. -/
def store (s : PoolAllocator n β) (ptr : ℕ) (bytes : β) : Option (PoolAllocator n β) :=
  if ptr < n.toNat then some { s with pool := s.pool.setIfInBounds ptr (.storage bytes) }
  else none

def full (s : PoolAllocator n β) : Bool := s.available = 0

/-- The allocator, and the slots that are with its client. -/
structure System (n : UInt64) (β : Type) where
  alloc : PoolAllocator n β
  live : Finset ℕ

def start (memory : Vector (Slot β) n.toNat) : System n β := ⟨init memory,∅⟩

inductive Op (β : Type)
  | allocate
  | deallocate (ptr : ℕ)
  | store (ptr : ℕ) (bytes : β)

/-- A client that gives back and writes to what it holds only. `construct` is an `allocate`
with a `store` after it. -/
def step (s : System n β) : Op β → Option (System n β)
  | .allocate => s.alloc.allocate.map fun (ptr,alloc) =>
      ⟨alloc,ptr.elim s.live fun slot => insert slot s.live⟩
  | .deallocate ptr =>
    if ptr ∈ s.live then (s.alloc.deallocate ptr).map fun alloc => ⟨alloc,s.live.erase ptr⟩
    else none
  | .store ptr bytes =>
    if ptr ∈ s.live then (s.alloc.store ptr bytes).map fun alloc => ⟨alloc,s.live⟩ else none

/-- The free list runs through the slots that are not live, and `available_` counts them. -/
structure Sound (s : System n β) (free : List ℕ) : Prop where
  chain : Linked s.alloc.nextAt s.alloc.freeHead free
  mem_free : ∀ i, i ∈ free ↔ i < n.toNat ∧ i ∉ s.live
  live_lt : ∀ i ∈ s.live, i < n.toNat
  available : s.alloc.available.toNat = free.length

def Slot.link : Slot β → Option (Option ℕ)
  | .next ptr => some ptr
  | .storage _ => none

theorem nextAt_eq (s : PoolAllocator n β) (i : ℕ) : s.nextAt i = s.pool[i]?.bind Slot.link := by
  rw [nextAt]
  rcases s.pool[i]? with _ | (_ | _) <;> rfl

theorem nextAt_set {pool : Vector (Slot β) n.toNat} (freeHead : Option ℕ) (available : UInt64)
    {i : ℕ} (hi : i < n.toNat) (slot : Slot β) :
    nextAt ⟨pool.setIfInBounds i slot,freeHead,available⟩ i = slot.link := by
  rw [nextAt_eq,Vector.getElem?_setIfInBounds_self_of_lt hi,Option.bind_some]

theorem nextAt_set_ne (s : PoolAllocator n β) (freeHead : Option ℕ) (available : UInt64)
    {i j : ℕ} (hne : j ≠ i) (slot : Slot β) :
    nextAt ⟨s.pool.setIfInBounds i slot,freeHead,available⟩ j = s.nextAt j := by
  rw [nextAt_eq,nextAt_eq,Vector.getElem?_setIfInBounds_ne hne.symm]

theorem Sound.length_add_card {s : System n β} {free : List ℕ} (h : Sound s free) :
    free.length+s.live.card = n.toNat := by
  have hfree : free.toFinset = Finset.range n.toNat \ s.live := by
    ext i
    rw [List.mem_toFinset,h.mem_free,Finset.mem_sdiff,Finset.mem_range]
  have hsub : s.live ⊆ Finset.range n.toNat := fun i hi => Finset.mem_range.mpr (h.live_lt i hi)
  have hcard := Finset.card_sdiff_add_card_eq_card hsub
  rwa [← hfree,List.toFinset_card_of_nodup h.chain.nodup,Finset.card_range] at hcard

theorem Sound.full_iff {s : System n β} {free : List ℕ} (h : Sound s free) :
    s.alloc.full = true ↔ s.live.card = n.toNat := by
  have hcard := h.length_add_card
  have havailable := h.available
  rw [full,decide_eq_true_iff,← UInt64.toNat_inj,UInt64.toNat_zero]
  omega

/-! ### Each operation keeps the free list -/

theorem linkSlots_link (memory : Vector (Slot β) n.toNat) {k i : ℕ} (hi : i < k)
    (hlt : i < n.toNat) : (linkSlots memory k)[i]? = some (.next (some (i+1))) := by
  induction k with
  | zero => cases hi
  | succ k ih =>
    rw [linkSlots,List.range_succ,List.foldl_append]
    change ((linkSlots memory k).setIfInBounds k _)[i]? = _
    rcases Nat.lt_succ_iff_lt_or_eq.mp hi with hik | rfl
    · rw [Vector.getElem?_setIfInBounds_ne hik.ne',ih hik]
    · rw [Vector.getElem?_setIfInBounds_self_of_lt hlt]

theorem start_sound (hn : 1 ≤ n) (memory : Vector (Slot β) n.toNat) :
    Sound (start memory) (List.range n.toNat) := by
  have hpos : 1 ≤ n.toNat := hn
  have hlast : (n-1).toNat = n.toNat-1 := UInt64.toNat_sub_of_le n 1 hn
  have hlink : ∀ i < n.toNat, (init memory).nextAt i =
      some (if i+1 < n.toNat then some (i+1) else none) := by
    intro i hi
    rw [init,hlast]
    split_ifs with h
    · rw [nextAt_eq,Vector.getElem?_setIfInBounds_ne (by omega),
        linkSlots_link memory (by omega) hi]
      rfl
    · obtain rfl : i = n.toNat-1 := by omega
      exact nextAt_set _ _ hi _
  exact {
    chain := by
      rw [List.range_eq_range']
      exact linked_range hlink hpos
    mem_free := fun i => by simp [start]
    live_lt := nofun
    available := by rw [List.length_range]; rfl }

theorem Sound.allocate_none {s : System n β} {free : List ℕ} (h : Sound s free)
    (hhead : s.alloc.freeHead = none) : s.alloc.allocate = some (none,s.alloc) ∧ free = [] := by
  refine ⟨by rw [allocate,hhead],?_⟩
  exact Linked.of_null (hhead ▸ h.chain)

theorem Sound.allocate_some {s : System n β} {free : List ℕ} (h : Sound s free) {slot : ℕ}
    (hhead : s.alloc.freeHead = some slot) :
    ∃ alloc rest, s.alloc.allocate = some (some slot,alloc) ∧ free = slot :: rest ∧
      Sound ⟨alloc,insert slot s.live⟩ rest := by
  obtain ⟨tail,rest,rfl,htail,hrest⟩ := Linked.pop (hhead ▸ h.chain)
  have hnodup := List.nodup_cons.mp h.chain.nodup
  have hslot := (h.mem_free slot).mp List.mem_cons_self
  have hone : 1 ≤ s.alloc.available := by
    rw [UInt64.le_iff_toNat_le,h.available]
    exact Nat.succ_le_succ (Nat.zero_le _)
  refine ⟨{ s.alloc with freeHead := tail, available := s.alloc.available-1 },rest,?_,rfl,?_⟩
  · rw [allocate,hhead]
    simp only [htail,Option.map_some]
  · exact {
      chain := hrest
      mem_free := fun i => by
        have hi := h.mem_free i
        rw [List.mem_cons] at hi
        rw [Finset.mem_insert,not_or,← and_assoc,and_right_comm,← hi]
        constructor
        · exact fun hmem => ⟨.inr hmem,fun heq => hnodup.1 (heq ▸ hmem)⟩
        · exact fun ⟨hmem,hne⟩ => hmem.resolve_left hne
      live_lt := fun i hi => (Finset.mem_insert.mp hi).elim (fun heq => heq ▸ hslot.1) (h.live_lt i)
      available := by
        rw [UInt64.toNat_sub_of_le _ _ hone,h.available]
        rfl }

theorem Sound.deallocate {s : System n β} {free : List ℕ} (h : Sound s free) {ptr : ℕ}
    (hptr : ptr ∈ s.live) : ∃ alloc, s.alloc.deallocate ptr = some alloc ∧
      Sound ⟨alloc,s.live.erase ptr⟩ (ptr :: free) := by
  have hlt := h.live_lt ptr hptr
  have hfree : ptr ∉ free := fun hmem => ((h.mem_free ptr).mp hmem).2 hptr
  refine ⟨_,if_pos hlt,?_⟩
  exact {
    chain := h.chain.push hfree (nextAt_set _ _ hlt _) fun j hj => nextAt_set_ne _ _ _ hj _
    mem_free := fun i => by
      rw [List.mem_cons,h.mem_free,Finset.mem_erase,not_and_or,not_not]
      constructor
      · rintro (rfl | ⟨hi,hnot⟩)
        · exact ⟨hlt,.inl rfl⟩
        · exact ⟨hi,.inr hnot⟩
      · rintro ⟨hi,heq | hnot⟩
        · exact .inl heq
        · exact .inr ⟨hi,hnot⟩
    live_lt := fun i hi => h.live_lt i (Finset.mem_of_mem_erase hi)
    available := by
      have hcard := h.length_add_card
      have hpos := Finset.card_pos.mpr ⟨ptr,hptr⟩
      have hsize := n.toNat_lt
      rw [UInt64.toNat_add,h.available,List.length_cons,
        show (1 : UInt64).toNat = 1 from rfl,Nat.mod_eq_of_lt (by omega)] }

theorem Sound.store {s : System n β} {free : List ℕ} (h : Sound s free) {ptr : ℕ}
    (hptr : ptr ∈ s.live) (bytes : β) : ∃ alloc, s.alloc.store ptr bytes = some alloc ∧
      Sound ⟨alloc,s.live⟩ free := by
  refine ⟨_,if_pos (h.live_lt ptr hptr),?_⟩
  exact {
    chain := h.chain.congr fun i hi => by
      refine nextAt_set_ne _ _ _ ?_ _
      rintro rfl
      exact ((h.mem_free i).mp hi).2 hptr
    mem_free := h.mem_free
    live_lt := h.live_lt
    available := h.available }

theorem step_sound {s t : System n β} {op : Op β} (h : ∃ free, Sound s free)
    (hstep : step s op = some t) : ∃ free, Sound t free := by
  obtain ⟨free,h⟩ := h
  cases op with
  | allocate =>
    cases hhead : s.alloc.freeHead with
    | none =>
      rw [step,(h.allocate_none hhead).1] at hstep
      cases hstep
      exact ⟨free,h⟩
    | some slot =>
      obtain ⟨alloc,rest,halloc,-,hsound⟩ := h.allocate_some hhead
      rw [step,halloc] at hstep
      cases hstep
      exact ⟨rest,hsound⟩
  | deallocate ptr =>
    rw [step] at hstep
    split_ifs at hstep with hptr
    obtain ⟨alloc,halloc,hsound⟩ := h.deallocate hptr
    rw [halloc] at hstep
    cases hstep
    exact ⟨_,hsound⟩
  | store ptr bytes =>
    rw [step] at hstep
    split_ifs at hstep with hptr
    obtain ⟨alloc,halloc,hsound⟩ := h.store hptr bytes
    rw [halloc] at hstep
    cases hstep
    exact ⟨_,hsound⟩

theorem reachable_sound (hn : 1 ≤ n) {memory : Vector (Slot β) n.toNat} {s : System n β}
    (h : Transition.Reachable step (start memory) s) : ∃ free, Sound s free :=
  h.invariant (P := fun s => ∃ free, Sound s free) ⟨_,start_sound hn memory⟩
    fun _ _ _ hs _ hstep => step_sound hs hstep

/-- What `allocate` returns in a reachable state, what `available` counts, and the free list. -/
theorem allocate_not_live (hn : 1 ≤ n) {memory : Vector (Slot β) n.toNat} {s : System n β}
    (h : Transition.Reachable step (start memory) s) :
    (∃ ptr alloc, s.alloc.allocate = some (ptr,alloc) ∧
      (∀ slot, ptr = some slot → slot < n.toNat ∧ slot ∉ s.live) ∧
      (ptr = none ↔ s.live.card = n.toNat)) ∧
    (∀ ptr ∈ s.live, (s.alloc.deallocate ptr).isSome) ∧
    s.alloc.available.toNat = n.toNat-s.live.card ∧
    ∃ free, Linked s.alloc.nextAt s.alloc.freeHead free ∧ free.Nodup ∧
      ∀ i, i ∈ free ↔ i < n.toNat ∧ i ∉ s.live := by
  obtain ⟨free,hsound⟩ := reachable_sound hn h
  have hcard := hsound.length_add_card
  refine ⟨?_,fun ptr hptr => ?_,?_,free,hsound.chain,hsound.chain.nodup,hsound.mem_free⟩
  · cases hhead : s.alloc.freeHead with
    | none =>
      obtain ⟨halloc,rfl⟩ := hsound.allocate_none hhead
      refine ⟨none,_,halloc,nofun,fun _ => ?_,fun _ => rfl⟩
      rwa [List.length_nil,Nat.zero_add] at hcard
    | some slot =>
      obtain ⟨alloc,rest,halloc,rfl,-⟩ := hsound.allocate_some hhead
      refine ⟨some slot,alloc,halloc,?_,nofun,fun hfull => ?_⟩
      · rintro i ⟨⟩
        exact (hsound.mem_free slot).mp List.mem_cons_self
      · rw [List.length_cons] at hcard
        omega
  · obtain ⟨alloc,halloc,-⟩ := hsound.deallocate hptr
    rw [halloc]
    rfl
  · rw [hsound.available]
    omega

/-- Both slots of a pool of two are taken, and the first comes back. -/
def twoSlotScript : List (Op ℕ) := [.allocate,.store 0 5,.allocate,.deallocate 0]

theorem allocate_not_live_two : ∃ s : System 2 ℕ,
    Transition.run step (start (.replicate _ (.storage 7))) twoSlotScript = some s ∧
      (∃ ptr alloc, s.alloc.allocate = some (ptr,alloc) ∧
        (∀ slot, ptr = some slot → slot < (2 : UInt64).toNat ∧ slot ∉ s.live) ∧
        (ptr = none ↔ s.live.card = (2 : UInt64).toNat)) ∧
      (∀ ptr ∈ s.live, (s.alloc.deallocate ptr).isSome) ∧
      s.alloc.available.toNat = (2 : UInt64).toNat-s.live.card ∧
      ∃ free, Linked s.alloc.nextAt s.alloc.freeHead free ∧ free.Nodup ∧
        ∀ i, i ∈ free ↔ i < (2 : UInt64).toNat ∧ i ∉ s.live := by
  obtain ⟨s,hs⟩ : ∃ s : System 2 ℕ, Transition.run step (start (.replicate _ (.storage 7)))
      twoSlotScript = some s := ⟨_,rfl⟩
  exact ⟨s,hs,allocate_not_live (by decide) (Transition.reachable_iff_run.mpr ⟨_,hs⟩)⟩

end PoolAllocator
end Marketlib
