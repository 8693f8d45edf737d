import Mathlib.Algebra.Ring.Nat
import Mathlib.Data.List.Basic
import Mathlib.Data.List.Induction
import Mathlib.Data.Nat.Init
import Mathlib.Tactic.Common

/-! `for (offset = 0; offset < n; offset += chunk)` over 64-bit sizes, with a body that is given
where it starts and how many it takes, and that ends the loop when its result is not good. -/

namespace Marketlib
namespace ChunkLoop

variable {σ ρ ε : Type}

/-- The loop from an offset on; nothing when the fuel runs out. -/
def loop (body : ℕ → ℕ → σ → Except ε (ρ × σ)) (good : ρ → Bool) (n chunk : ℕ) :
    ℕ → ℕ → ρ → σ → Option (Except ε (ρ × σ))
  | 0,_,_,_ => none
  | fuel+1,offset,result,s =>
    if offset < n then
      match body offset (min chunk (n-offset)) s with
      | .error e => some (.error e)
      | .ok (r,t) =>
        if good r then loop body good n chunk fuel ((offset+chunk) % 2^64) r t
        else some (.ok (r,t))
    else some (.ok (result,s))

variable {body : ℕ → ℕ → σ → Except ε (ρ × σ)} {good : ρ → Bool} {n chunk offset : ℕ}
  {result r : ρ} {s t : σ}

/-- With enough fuel the loop has an outcome. -/
def Ends (body : ℕ → ℕ → σ → Except ε (ρ × σ)) (good : ρ → Bool) (n chunk offset : ℕ) (result : ρ)
    (s : σ) : Prop := ∃ fuel, loop body good n chunk fuel offset result s ≠ none

theorem loop_past (fuel : ℕ) (h : n ≤ offset) :
    loop body good n chunk (fuel+1) offset result s = some (.ok (result,s)) := by
  rw [loop,if_neg (Nat.not_lt.mpr h)]

theorem loop_throws {e : ε} (fuel : ℕ) (h : offset < n)
    (hbody : body offset (min chunk (n-offset)) s = .error e) :
    loop body good n chunk (fuel+1) offset result s = some (.error e) := by
  rw [loop,if_pos h,hbody]

theorem loop_breaks (fuel : ℕ) (h : offset < n)
    (hbody : body offset (min chunk (n-offset)) s = .ok (r,t)) (hgood : good r = false) :
    loop body good n chunk (fuel+1) offset result s = some (.ok (r,t)) := by
  rw [loop,if_pos h,hbody]
  dsimp only
  rw [if_neg (by simp [hgood])]

theorem loop_goes (fuel : ℕ) (h : offset < n)
    (hbody : body offset (min chunk (n-offset)) s = .ok (r,t)) (hgood : good r = true) :
    loop body good n chunk (fuel+1) offset result s =
      loop body good n chunk fuel ((offset+chunk) % 2^64) r t := by
  rw [loop,if_pos h,hbody]
  dsimp only
  rw [if_pos hgood]

/-- A turn that uses up the fuel is one that goes on. -/
theorem loop_eq_none {fuel : ℕ} (h : offset < n) :
    loop body good n chunk (fuel+1) offset result s = none ↔
      ∃ r t, body offset (min chunk (n-offset)) s = .ok (r,t) ∧ good r = true ∧
        loop body good n chunk fuel ((offset+chunk) % 2^64) r t = none := by
  cases hbody : body offset (min chunk (n-offset)) s with
  | error e =>
    rw [loop_throws fuel h hbody]
    simp
  | ok out =>
    obtain ⟨r,t⟩ := out
    cases hr : good r with
    | false =>
      rw [loop_breaks fuel h hbody hr]
      simp [hr]
    | true =>
      rw [loop_goes fuel h hbody hr]
      simp [hr]

/-- What holds where chunk `k` starts, of the last result and the state. Either every chunk
was good and the offset is past the end, or the last one was not. -/
theorem loop_invariant (good : ρ → Bool) (inv : ℕ → ρ → σ → Prop) (hchunk : 1 ≤ chunk)
    (hn : n+chunk < 2^64)
    (hnext : ∀ k r s, inv k r s → (k = 0 ∨ good r = true) → k*chunk < n →
      ∃ r' t, body (k*chunk) (min chunk (n-k*chunk)) s = .ok (r',t) ∧ inv (k+1) r' t)
    {k : ℕ} (hinv : inv k result s) (hgood : k = 0 ∨ good result = true) {fuel : ℕ}
    (hfuel : n-k*chunk < fuel) :
    ∃ j r t, loop body good n chunk fuel (k*chunk) result s = some (.ok (r,t)) ∧ inv j r t ∧
      ((j = 0 ∨ good r = true) ∧ n ≤ j*chunk ∨
        0 < j ∧ good r = false ∧ (j-1)*chunk < n) := by
  induction fuel generalizing k result s with
  | zero => exact absurd hfuel (Nat.not_lt_zero _)
  | succ fuel ih =>
    rcases Nat.lt_or_ge (k*chunk) n with hlt | hge
    · obtain ⟨r,t,hbody,ht⟩ := hnext k result s hinv hgood hlt
      cases hr : good r with
      | false =>
        exact ⟨k+1,r,t,loop_breaks fuel hlt hbody hr,ht,.inr ⟨k.succ_pos,hr,hlt⟩⟩
      | true =>
        have hoffset : (k*chunk+chunk) % 2^64 = (k+1)*chunk := by
          rw [Nat.succ_mul,Nat.mod_eq_of_lt]
          omega
        rw [loop_goes fuel hlt hbody hr,hoffset]
        refine ih ht (.inr hr) ?_
        rw [Nat.succ_mul]
        omega
    · exact ⟨k,result,s,loop_past fuel hge,hinv,.inl ⟨hgood,hge⟩⟩

/-- A body that keeps on succeeding, `k` times, without moving. -/
def again (body : ℕ → ℕ → σ → Except ε (ρ × σ)) (good : ρ → Bool) : ℕ → σ → Option σ
  | 0,s => some s
  | k+1,s =>
    match body 0 0 s with
    | .error _ => none
    | .ok (r,t) => if good r then again body good k t else none

theorem again_ne_none {k : ℕ} : again body good (k+1) s ≠ none ↔
    ∃ r t, body 0 0 s = .ok (r,t) ∧ good r = true ∧ again body good k t ≠ none := by
  rw [again]
  cases body 0 0 s with
  | error e => simp
  | ok out =>
    obtain ⟨r,t⟩ := out
    cases hr : good r with
    | false => simp [hr]
    | true => simp [hr]

/-- A body that always succeeds where `p` holds, and keeps it. -/
theorem again_of_forall {p : σ → Prop}
    (hbody : ∀ s, p s → ∃ r t, body 0 0 s = .ok (r,t) ∧ good r = true ∧ p t) (k : ℕ) (hs : p s) :
    again body good k s ≠ none := by
  induction k generalizing s with
  | zero => exact Option.some_ne_none s
  | succ k ih =>
    obtain ⟨r,t,hrun,hgood,ht⟩ := hbody s hs
    exact again_ne_none.mpr ⟨r,t,hrun,hgood,ih ht⟩

theorem loop_zero_eq_none (hn : 0 < n) {fuel : ℕ} :
    loop body good n 0 fuel 0 result s = none ↔ again body good fuel s ≠ none := by
  induction fuel generalizing result s with
  | zero => exact iff_of_true rfl (Option.some_ne_none s)
  | succ fuel ih =>
    rw [loop_eq_none hn,again_ne_none,Nat.zero_min]
    exact exists_congr fun r => exists_congr fun t => and_congr_right fun _ =>
      and_congr_right fun _ => ih

/-- A loop that does not move ends if and only if one of its turns ends it. -/
theorem ends_zero (hn : 0 < n) :
    Ends body good n 0 0 result s ↔ ∃ k, again body good k s = none :=
  exists_congr fun _ => (not_congr (loop_zero_eq_none hn)).trans not_not

/-- One that does move leaves less and less. -/
theorem loop_ends_below (hchunk : 1 ≤ chunk) (hn : n+chunk < 2^64) {fuel : ℕ}
    (hfuel : n-offset < fuel) : loop body good n chunk fuel offset result s ≠ none := by
  induction fuel generalizing offset result s with
  | zero => exact absurd hfuel (Nat.not_lt_zero _)
  | succ fuel ih =>
    rcases Nat.lt_or_ge offset n with hlt | hge
    · intro hnone
      obtain ⟨r,t,-,-,hrest⟩ := (loop_eq_none hlt).mp hnone
      rw [Nat.mod_eq_of_lt (by omega)] at hrest
      exact ih (by omega) hrest
    · rw [loop_past fuel hge]
      exact Option.some_ne_none _

/-- A chunk that takes everything ends the loop at once. -/
theorem ends_whole (hn : n ≤ chunk) (hchunk : chunk < 2^64) :
    Ends body good n chunk 0 result s := by
  refine ⟨2,?_⟩
  rcases Nat.eq_zero_or_pos n with rfl | hpos
  · rw [loop_past 1 (Nat.zero_le 0)]
    exact Option.some_ne_none _
  · intro hnone
    obtain ⟨r,t,-,-,hrest⟩ := (loop_eq_none hpos).mp hnone
    rw [Nat.zero_add,Nat.mod_eq_of_lt hchunk,loop_past 0 hn] at hrest
    cases hrest

/-- For what a vector can hold and any 64-bit chunk: the loop ends unless it has something to
do, does not move, and nothing ever stops it. -/
theorem ends_iff (hn : n < 2^63) (hchunk : chunk < 2^64) :
    Ends body good n chunk 0 result s ↔
      n = 0 ∨ chunk ≠ 0 ∨ ∃ k, again body good k s = none := by
  rcases Nat.eq_zero_or_pos n with rfl | hpos
  · exact iff_of_true (ends_whole (Nat.zero_le _) hchunk) (.inl rfl)
  · by_cases hmoves : chunk = 0
    · subst hmoves
      rw [ends_zero hpos]
      simp [Nat.pos_iff_ne_zero.mp hpos]
    · refine iff_of_true ?_ (.inr (.inl hmoves))
      rcases Nat.le_total n chunk with hle | hle
      · exact ends_whole hle hchunk
      · exact ⟨n+1,loop_ends_below (Nat.pos_of_ne_zero hmoves) (by omega) (by omega)⟩

/-- What the chunks contribute, when chunk `j` contributes that of each thing it takes. -/
theorem flatMap_chunks {α β : Type} {xs : List α} {f : α → List β} {g : ℕ → List β}
    (h : ∀ j x, xs[j]? = some x →
      f x = (List.range (min chunk (n-j*chunk))).flatMap fun k => g (j*chunk+k)) :
    xs.flatMap f = (List.range (min n (xs.length*chunk))).flatMap g := by
  induction xs using List.reverseRecOn with
  | nil => simp
  | append_singleton xs x ih =>
    have hlast : (xs ++ [x])[xs.length]? = some x := List.getElem?_concat_length
    have hbefore : ∀ (j : ℕ) y, xs[j]? = some y → (xs ++ [x])[j]? = some y := by
      intro j y hy
      rw [List.getElem?_append_left (List.getElem?_eq_some_iff.mp hy).1]
      exact hy
    have hcount : min n ((xs ++ [x]).length*chunk) =
        min n (xs.length*chunk)+min chunk (n-xs.length*chunk) := by
      rw [List.length_append,List.length_singleton,Nat.succ_mul]
      omega
    rw [List.flatMap_append,List.flatMap_singleton,ih fun j y hy => h j y (hbefore j y hy),
      h _ x hlast,hcount,List.range_add,List.flatMap_append,List.flatMap_map]
    refine congrArg _ (List.flatMap_congr fun k hk => ?_)
    have hbelow := List.mem_range.mp hk
    rw [Nat.min_eq_right (by omega : xs.length*chunk ≤ n)]

end ChunkLoop
end Marketlib
