import Mathlib.Data.List.Nodup
import Mathlib.Tactic.Common

/-! Singly linked chains through a memory. `next i = none` says that there is no link to follow
at `i`; `next i = some none` is the null that ends a chain. -/

namespace Marketlib
namespace LinkedChain

variable {ι : Type*} {next next' : ι → Option (Option ι)} {head : Option ι} {i : ι} {is js : List ι}

/-- The chain from `head` runs through `is` and ends. -/
def Linked (next : ι → Option (Option ι)) : Option ι → List ι → Prop
  | head,[] => head = none
  | head,i :: is => head = some i ∧ ∃ tail, next i = some tail ∧ Linked next tail is

theorem Linked.congr (h : Linked next head is) (heq : ∀ i ∈ is, next' i = next i) :
    Linked next' head is := by
  induction is generalizing head with
  | nil => exact h
  | cons i is ih =>
    obtain ⟨rfl,tail,htail,hrest⟩ := h
    refine ⟨rfl,tail,?_,ih hrest fun j hj => heq j (List.mem_cons_of_mem i hj)⟩
    rw [heq i List.mem_cons_self,htail]

/-- A chain is determined by where it begins. -/
theorem Linked.unique (h : Linked next head is) (h' : Linked next head js) : is = js := by
  induction is generalizing head js with
  | nil =>
    cases h
    cases js with
    | nil => rfl
    | cons j js => cases h'.1
  | cons i is ih =>
    obtain ⟨rfl,tail,htail,hrest⟩ := h
    cases js with
    | nil => cases h'
    | cons j js =>
      obtain ⟨hij,tail',htail',hrest'⟩ := h'
      cases hij
      rw [htail] at htail'
      cases htail'
      rw [ih hrest hrest']

theorem Linked.suffix {front : List ι} (h : Linked next head (front ++ i :: is)) :
    Linked next (some i) (i :: is) := by
  induction front generalizing head with
  | nil => exact h.1 ▸ h
  | cons j front ih =>
    obtain ⟨-,tail,-,hrest⟩ := h
    exact ih hrest

/-- A chain that ends never comes back to a place. -/
theorem Linked.nodup (h : Linked next head is) : is.Nodup := by
  induction is generalizing head with
  | nil => exact List.nodup_nil
  | cons i is ih =>
    have hrest := h.2.choose_spec.2
    refine List.nodup_cons.mpr ⟨fun hi => ?_,ih hrest⟩
    obtain ⟨front,back,rfl⟩ := List.append_of_mem hi
    -- from `i` on the chain would have two lengths
    have heq := congrArg List.length (Linked.unique (h.1 ▸ h) hrest.suffix)
    simp only [List.length_cons,List.length_append] at heq
    omega

theorem Linked.push (h : Linked next head is) (hi : i ∉ is) (hlink : next' i = some head)
    (hsame : ∀ j ≠ i, next' j = next j) : Linked next' (some i) (i :: is) :=
  ⟨rfl,head,hlink,h.congr fun j hj => hsame j fun hji => hi (hji ▸ hj)⟩

theorem Linked.pop (h : Linked next (some i) is) :
    ∃ tail rest, is = i :: rest ∧ next i = some tail ∧ Linked next tail rest := by
  cases is with
  | nil => cases h
  | cons j rest =>
    obtain ⟨hij,tail,htail,hrest⟩ := h
    cases hij
    exact ⟨tail,rest,rfl,htail,hrest⟩

theorem Linked.of_null (h : Linked next none is) : is = [] := by
  cases is with
  | nil => rfl
  | cons i is => cases h.1

/-- Links that count up to the end of a range. -/
theorem linked_range {next : ℕ → Option (Option ℕ)} {n : ℕ}
    (h : ∀ i < n, next i = some (if i+1 < n then some (i+1) else none)) {k : ℕ} (hk : k < n) :
    Linked next (some k) (List.range' k (n-k)) := by
  induction hd : n-k generalizing k with
  | zero => omega
  | succ d ih =>
    refine ⟨rfl,_,h k hk,?_⟩
    split_ifs with hlast
    · exact ih hlast (by omega)
    · obtain rfl : d = 0 := by omega
      rfl

end LinkedChain
end Marketlib
