import Mathlib.Algebra.BigOperators.Group.List.Basic
import Mathlib.Algebra.Order.Group.Nat
import Mathlib.Logic.Function.Iterate
import Marketlib.Routing

/-! Registration as the code does it, with no check of the count, and the queue index that each
routing formula then computes. Workers are counted by natural numbers: `num_workers_` cannot be
made to wrap. -/

namespace Marketlib
namespace ThreadPool

/-- `num_workers_` and `groups_`. -/
structure Registry where
  numWorkers : ℕ
  groups : List GroupInfo

namespace Registry

/-- `assert_bounds` is empty. -/
def addWorker (r : Registry) : ℕ × Registry :=
  (r.numWorkers,{ r with numWorkers := r.numWorkers+1 })

def spawnWorker (r : Registry) : ℕ × Registry := r.addWorker

/-- `spawn_group` with `count` contexts. -/
def spawnGroup (r : Registry) (count : ℕ) : ℕ × Registry :=
  let first := r.numWorkers
  let r := (fun r => (addWorker r).2)^[count] r
  let groups := r.groups ++ [⟨first,count⟩]
  (groups.length-1,{ r with groups := groups })

theorem iterate_addWorker (r : Registry) (count : ℕ) :
    (fun r => (addWorker r).2)^[count] r = { r with numWorkers := r.numWorkers+count } := by
  induction count with
  | zero => rfl
  | succ count ih =>
    rw [Function.iterate_succ_apply',ih]
    rfl

theorem spawnGroup_eq (r : Registry) (count : ℕ) : r.spawnGroup count =
    (r.groups.length,⟨r.numWorkers+count,r.groups ++ [⟨r.numWorkers,count⟩]⟩) := by
  simp [spawnGroup,iterate_addWorker]

end Registry

/-- A call that registers workers. -/
inductive Spawn
  | worker
  | group (count : ℕ)
  deriving DecidableEq

namespace Spawn

def run (r : Registry) : Spawn → Registry
  | .worker => r.spawnWorker.2
  | .group count => (r.spawnGroup count).2

def size : Spawn → ℕ
  | .worker => 1
  | .group count => count

/-- The group a call makes, in a pool of `first` workers. -/
def made (first : ℕ) : Spawn → List GroupInfo
  | .worker => []
  | .group count => [⟨first,count⟩]

theorem run_eq (r : Registry) (call : Spawn) :
    call.run r = ⟨r.numWorkers+call.size,r.groups ++ call.made r.numWorkers⟩ := by
  cases call with
  | worker => simp [run,size,made,Registry.spawnWorker,Registry.addWorker]
  | group count => simp [run,size,made,Registry.spawnGroup_eq]

end Spawn

/-- The pool after the calls made before `start()`. -/
def registered (calls : List Spawn) : Registry := calls.foldl Spawn.run ⟨0,[]⟩

/-- How many workers the calls ask for. -/
def total (calls : List Spawn) : ℕ := (calls.map Spawn.size).sum

theorem registered_append (calls : List Spawn) (call : Spawn) :
    registered (calls ++ [call]) = call.run (registered calls) := by
  simp [registered]

theorem registered_numWorkers (calls : List Spawn) :
    (registered calls).numWorkers = total calls := by
  induction calls using List.reverseRecOn with
  | nil => rfl
  | append_singleton calls call ih =>
    rw [registered_append,Spawn.run_eq]
    simp [ih,total]

theorem registered_groups_le (calls : List Spawn) :
    ∀ g ∈ (registered calls).groups, g.first+g.count ≤ (registered calls).numWorkers := by
  induction calls using List.reverseRecOn with
  | nil => simp [registered]
  | append_singleton calls call ih =>
    rw [registered_append,Spawn.run_eq]
    intro g hg
    rcases List.mem_append.mp hg with hg | hg
    · exact (ih g hg).trans (Nat.le_add_right ..)
    · cases call with
      | worker => cases hg
      | group count =>
        obtain rfl := List.mem_singleton.mp hg
        rfl

theorem exists_group_iff (calls : List Spawn) (count : ℕ) :
    (∃ g ∈ (registered calls).groups, g.count = count) ↔ .group count ∈ calls := by
  induction calls using List.reverseRecOn with
  | nil => simp [registered]
  | append_singleton calls call ih =>
    rw [registered_append,Spawn.run_eq]
    simp only [List.mem_append,or_and_right,exists_or,ih,List.mem_singleton]
    cases call with
    | worker => simp [Spawn.made]
    | group n => simp [Spawn.made,eq_comm]

/-! ### The index of a submit -/

section Index

variable {Key : Type*}

/-- `first + x % count`, which a zero count leaves without a value. -/
def queueIndex (x : UInt64) (first count : ℕ) : Option ℕ :=
  if count = 0 then none else some (first+x.toNat % count)

/-- The index into `queues_`; `rr` is the value `rr_counter_` had before its increment. -/
def index (r : Registry) (hash : Key → UInt64) (rr : UInt64) : Route Key → Option ℕ
  | .any => queueIndex rr 0 r.numWorkers
  | .byKey key => queueIndex (hash key) 0 r.numWorkers
  | .toGroup group key => do
    let g ← r.groups[group]?
    queueIndex (hash key) g.first g.count
  | .toWorker idx => some idx

/-- A pool within its bound routes by these indices. -/
theorem index_of_target {maxWorkers : ℕ} {p : Layout maxWorkers} {hash : Key → UInt64}
    {rr : UInt64} {route : Route Key} {w : Fin maxWorkers} (h : target p hash rr route = some w) :
    index ⟨p.numWorkers,p.groups⟩ hash rr route = some w.val := by
  have hpick {x : UInt64} {first count : ℕ} (h : pick maxWorkers x first count = some w) :
      queueIndex x first count = some w.val := by
    unfold pick at h
    split_ifs at h with hcount hlt
    cases h
    exact if_neg hcount
  cases route with
  | any => exact hpick h
  | byKey key => exact hpick h
  | toGroup group key =>
    obtain ⟨g,hg,h⟩ := Option.bind_eq_some_iff.mp h
    exact Option.bind_eq_some_iff.mpr ⟨g,hg,hpick h⟩
  | toWorker idx =>
    simp only [target] at h
    split_ifs at h
    cases h
    rfl

def Route.isAny : Route Key → Bool
  | .any => true
  | _ => false

/-- `rr_counter_` after some submits. -/
def rrCounter (submits : List (Route Key)) : UInt64 := UInt64.ofNat (submits.countP Route.isAny)

/-- `submit_any`, `submit_by_key`, or `submit_to_group` with a registered group. -/
def Routed (r : Registry) : Route Key → Prop
  | .any | .byKey _ => True
  | .toGroup group _ => group < r.groups.length
  | .toWorker _ => False

/-- The modulus is not zero, and the index denotes a registered worker with a queue, and for a
group one of its workers. -/
def InBounds (maxWorkers : ℕ) (r : Registry) (hash : Key → UInt64) (rr : UInt64)
    (route : Route Key) : Prop :=
  ∃ idx, index r hash rr route = some idx ∧ idx < maxWorkers ∧ idx < r.numWorkers ∧
    ∀ group key, route = .toGroup group key →
      ∃ g ∈ r.groups[group]?, g.first ≤ idx ∧ idx < g.first+g.count

theorem queueIndex_eq (x : UInt64) (first : ℕ) {count : ℕ} (h : 0 < count) :
    queueIndex x first count = some (first+x.toNat % count) ∧ x.toNat % count < count :=
  ⟨if_neg h.ne',Nat.mod_lt _ h⟩

/-- With some workers, no more than there are queues, and no empty group, every submit stays in
bounds. -/
theorem inBounds_of_total {maxWorkers : ℕ} {calls : List Spawn} (hpos : 0 < total calls)
    (hle : total calls ≤ maxWorkers) (hgroups : .group 0 ∉ calls) (hash : Key → UInt64)
    (rr : UInt64) {route : Route Key} (hroute : Routed (registered calls) route) :
    InBounds maxWorkers (registered calls) hash rr route := by
  rw [← registered_numWorkers] at hpos hle
  cases route with
  | any =>
    obtain ⟨heq,hlt⟩ := queueIndex_eq rr 0 hpos
    rw [Nat.zero_add] at heq
    exact ⟨_,heq,hlt.trans_le hle,hlt,nofun⟩
  | byKey key =>
    obtain ⟨heq,hlt⟩ := queueIndex_eq (hash key) 0 hpos
    rw [Nat.zero_add] at heq
    exact ⟨_,heq,hlt.trans_le hle,hlt,nofun⟩
  | toGroup group key =>
    have hroute : group < (registered calls).groups.length := hroute
    obtain ⟨g,hget⟩ : ∃ g, (registered calls).groups[group]? = some g :=
      ⟨_,List.getElem?_eq_getElem hroute⟩
    have hmem := List.mem_of_getElem? hget
    have hfit := registered_groups_le calls g hmem
    have hcount : 0 < g.count := Nat.pos_of_ne_zero fun hzero =>
      hgroups ((exists_group_iff calls 0).mp ⟨g,hmem,hzero⟩)
    obtain ⟨heq,hlt⟩ := queueIndex_eq (hash key) g.first hcount
    refine ⟨_,Option.bind_eq_some_iff.mpr ⟨g,hget,heq⟩,by omega,by omega,?_⟩
    rintro _ _ ⟨⟩
    exact ⟨g,hget,Nat.le_add_right ..,by omega⟩
  | toWorker idx => exact hroute.elim

theorem rrCounter_replicate {n : ℕ} (h : n < 2^64) :
    (rrCounter (List.replicate n (.any : Route Key))).toNat = n := by
  have hcount : (List.replicate n (.any : Route Key)).countP Route.isAny = n := by
    simp [List.countP_replicate,Route.isAny]
  rw [rrCounter,hcount]
  exact UInt64.toNat_ofNat_of_lt' h

/-- Every later submit stays in bounds if and only if the calls registered some worker, no more
than `MaxWorkers` in all, and no empty group. -/
theorem inBounds_iff [Inhabited Key] (maxWorkers : UInt64) (calls : List Spawn)
    (hash : Key → UInt64) :
    (∀ (before : List (Route Key)) (route : Route Key), Routed (registered calls) route →
      InBounds maxWorkers.toNat (registered calls) hash (rrCounter before) route) ↔
    0 < total calls ∧ total calls ≤ maxWorkers.toNat ∧ .group 0 ∉ calls := by
  constructor
  · intro h
    have hpos : 0 < total calls := by
      obtain ⟨idx,-,-,hlt,-⟩ := h [] .any trivial
      rw [registered_numWorkers] at hlt
      omega
    refine ⟨hpos,?_,fun hempty => ?_⟩
    · by_contra hmany
      -- the round robin comes to the first worker without a queue
      obtain ⟨idx,hidx,hlt,-⟩ := h (List.replicate maxWorkers.toNat .any) .any trivial
      rw [index,registered_numWorkers,(queueIndex_eq _ 0 hpos).1,
        rrCounter_replicate maxWorkers.toNat_lt,Nat.mod_eq_of_lt (by omega)] at hidx
      cases hidx
      omega
    · obtain ⟨g,hmem,hzero⟩ := (exists_group_iff calls 0).mpr hempty
      obtain ⟨group,hlt,rfl⟩ := List.getElem_of_mem hmem
      obtain ⟨idx,-,-,-,hgroup⟩ := h [] (.toGroup group default) hlt
      obtain ⟨g,hg,hle,hlt'⟩ := hgroup group default rfl
      rw [List.getElem?_eq_getElem hlt] at hg
      cases hg
      omega
  · rintro ⟨hpos,hle,hgroups⟩ before route hroute
    exact inBounds_of_total hpos hle hgroups hash _ hroute

/-- A pool of two queues with three workers, and one with an empty group. -/
theorem routing_leaves_bounds :
    index (registered [.worker,.group 2]) (id : UInt64 → UInt64)
      (rrCounter [(.any : Route UInt64),.any]) .any = some 2 ∧
    ¬InBounds 2 (registered [.worker,.group 2]) (id : UInt64 → UInt64)
      (rrCounter [(.any : Route UInt64),.any]) .any ∧
    index (registered [.worker,.group 0]) (id : UInt64 → UInt64) 0 (.toGroup 0 5) = none ∧
    ¬InBounds 2 (registered [.worker,.group 0]) (id : UInt64 → UInt64) 0 (.toGroup 0 5) := by
  have hthird : index (registered [.worker,.group 2]) (id : UInt64 → UInt64)
      (rrCounter [(.any : Route UInt64),.any]) .any = some 2 := by decide
  have hempty : index (registered [.worker,.group 0]) (id : UInt64 → UInt64) 0
      (.toGroup 0 5) = none := by decide
  refine ⟨hthird,?_,hempty,?_⟩
  · rintro ⟨idx,hidx,hlt,-⟩
    rw [hthird] at hidx
    cases hidx
    omega
  · rintro ⟨idx,hidx,-⟩
    rw [hempty] at hidx
    cases hidx

end Index
end ThreadPool
end Marketlib
