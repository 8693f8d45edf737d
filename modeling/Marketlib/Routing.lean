import Mathlib.Data.UInt
import Mathlib.Tactic.Common

/-! The workers and groups of a pool, and the worker each kind of submit goes to. Where the
code would divide by zero or index past its arrays there is no result. -/

namespace Marketlib
namespace ThreadPool

/-- `GroupInfo`: a contiguous block of workers. -/
structure GroupInfo where
  first : ℕ
  count : ℕ

/-- The registered workers, at most `MaxWorkers`, and the groups among them. -/
structure Layout (maxWorkers : ℕ) where
  numWorkers : ℕ
  groups : List GroupInfo
  numWorkers_le : numWorkers ≤ maxWorkers
  groups_le : ∀ g ∈ groups, g.first+g.count ≤ numWorkers

namespace Layout

variable {maxWorkers : ℕ}

def empty : Layout maxWorkers := ⟨0,[],Nat.zero_le _,by simp⟩

def addWorker (p : Layout maxWorkers) (h : p.numWorkers < maxWorkers) : Layout maxWorkers where
  numWorkers := p.numWorkers+1
  groups := p.groups
  numWorkers_le := h
  groups_le := fun g hg => (p.groups_le g hg).trans (Nat.le_succ _)

/-- `spawn_group` with `count` contexts. -/
def spawnGroup (p : Layout maxWorkers) (count : ℕ) (h : p.numWorkers+count ≤ maxWorkers) :
    Layout maxWorkers where
  numWorkers := p.numWorkers+count
  groups := p.groups ++ [⟨p.numWorkers,count⟩]
  numWorkers_le := h
  groups_le := fun g hg => by
    rcases List.mem_append.mp hg with hg | hg
    · exact (p.groups_le g hg).trans (Nat.le_add_right ..)
    · rw [List.mem_singleton.mp hg]

end Layout

/-- The kind of a submit, with the arguments that choose its worker. -/
inductive Route (Key : Type*)
  | any
  | byKey (key : Key)
  | toGroup (group : ℕ) (key : Key)
  | toWorker (idx : ℕ)
  deriving DecidableEq

section Target

variable {maxWorkers : ℕ} {Key : Type*}

/-- `queues_[first + x % count]`. -/
def pick (maxWorkers : ℕ) (x : UInt64) (first count : ℕ) : Option (Fin maxWorkers) :=
  if count = 0 then none
  else if h : first+x.toNat % count < maxWorkers then some ⟨first+x.toNat % count,h⟩
  else none

/-- The worker of a submit; `rr` is the value `rr_counter_` had before its increment. -/
def target (p : Layout maxWorkers) (hash : Key → UInt64) (rr : UInt64) :
    Route Key → Option (Fin maxWorkers)
  | .any => pick maxWorkers rr 0 p.numWorkers
  | .byKey key => pick maxWorkers (hash key) 0 p.numWorkers
  | .toGroup group key => do
    let g ← p.groups[group]?
    pick maxWorkers (hash key) g.first g.count
  | .toWorker idx => if h : idx < maxWorkers then some ⟨idx,h⟩ else none

theorem pick_lt {x : UInt64} {first count : ℕ} {w : Fin maxWorkers}
    (h : pick maxWorkers x first count = some w) : w.val < first+count := by
  unfold pick at h
  split_ifs at h with hcount hlt
  cases h
  exact Nat.add_lt_add_left (Nat.mod_lt _ (Nat.pos_of_ne_zero hcount)) _

variable {p : Layout maxWorkers} {hash : Key → UInt64}

/-- Every submit but `submit_any` picks its worker by its arguments alone. -/
theorem target_fixed {rr : UInt64} {route : Route Key} (h : route ≠ .any) (rr' : UInt64) :
    target p hash rr route = target p hash rr' route := by
  cases route with
  | any => exact absurd rfl h
  | byKey key => rfl
  | toGroup group key => rfl
  | toWorker idx => rfl

/-- Every submit but `submit_to_worker` picks a registered worker. -/
theorem target_lt {rr : UInt64} {route : Route Key} {w : Fin maxWorkers}
    (h : target p hash rr route = some w) (hroute : ∀ idx, route ≠ .toWorker idx) :
    w.val < p.numWorkers := by
  cases route with
  | any => simpa using pick_lt h
  | byKey key => simpa using pick_lt h
  | toGroup group key =>
    obtain ⟨g,hg,hpick⟩ := Option.bind_eq_some_iff.mp h
    exact (pick_lt hpick).trans_le (p.groups_le g (List.mem_of_getElem? hg))
  | toWorker idx => exact absurd rfl (hroute idx)

/-- `worker_for_key`. -/
theorem target_byKey {rr : UInt64} {key : Key} {w : Fin maxWorkers}
    (h : target p hash rr (.byKey key) = some w) : w.val = (hash key).toNat % p.numWorkers := by
  change pick maxWorkers _ 0 p.numWorkers = _ at h
  unfold pick at h
  split_ifs at h
  cases h
  exact Nat.zero_add _

end Target
end ThreadPool
end Marketlib
