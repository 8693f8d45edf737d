import Mathlib.Data.Nat.Log
import Mathlib.Data.Rat.Floor
import Mathlib.Algebra.BigOperators.Fin
import Marketlib.SearchTree

/-! The power-of-two latency histogram of `perfmeasure/histogram.h`: what `record` and
`reset` keep, and which sample's bucket the scan of `percentile` ends in. -/
namespace Marketlib
namespace LatencyHistogram
open SearchTree

abbrev kBuckets : ℕ := 64

/-- The members of `LatencyHistogram`. -/
structure Histogram where
  counts : Fin kBuckets → UInt64
  total : UInt64
  min : UInt64
  max : UInt64

/-- The two branches of the preprocessor in `bucket_for`. -/
inductive Build | gnu | portable

theorem toNat_shiftRight_one (v : UInt64) : (v >>> 1).toNat = v.toNat / 2 := by
  rw [UInt64.toNat_shiftRight]
  simp [Nat.shiftRight_eq_div_pow]

/-- `for (v = ns; v > 1; v >>= 1) ++bit`. -/
def shiftLoop (v : UInt64) (bit : ℕ) : ℕ :=
  if 1 < v then shiftLoop (v >>> 1) (bit+1) else bit
termination_by v.toNat
decreasing_by
  rename_i hv
  have hpos : 1 < v.toNat := by simpa [UInt64.lt_iff_toNat_lt] using hv
  rw [toNat_shiftRight_one]
  exact Nat.div_lt_self (Nat.zero_lt_of_lt hpos) Nat.one_lt_two

def bit : Build → UInt64 → ℕ
  | .gnu, ns => 63 - ns.toBitVec.clz.toNat
  | .portable, ns => shiftLoop ns 0

theorem kBuckets_pos : 0 < kBuckets := Nat.zero_lt_succ 63

theorem min_bit_lt (n : ℕ) : Min.min n (kBuckets-1) < kBuckets :=
  (Nat.min_le_right n (kBuckets-1)).trans_lt (Nat.lt_succ_self 63)

def bucketFor (build : Build) (ns : UInt64) : Fin kBuckets :=
  if ns = 0 then ⟨0,kBuckets_pos⟩ else ⟨Min.min (bit build ns) (kBuckets-1),min_bit_lt _⟩

namespace Histogram

/-- A histogram as constructed. -/
def create : Histogram := ⟨fun _ => 0,0,-1,0⟩

def record (build : Build) (h : Histogram) (ns : UInt64) : Histogram where
  counts := Function.update h.counts (bucketFor build ns) (h.counts (bucketFor build ns) + 1)
  total := h.total + 1
  min := if ns < h.min then ns else h.min
  max := if h.max < ns then ns else h.max

def reset (_ : Histogram) : Histogram := create

/-- The loop of `percentile` from bucket `i` on. -/
def scan (counts : Fin kBuckets → UInt64) (target cum : UInt64) (i : ℕ) : UInt64 :=
  if h : i < kBuckets then
    if target < cum + counts ⟨i,h⟩ then 1 <<< UInt64.ofNat i
    else scan counts target (cum + counts ⟨i,h⟩) (i+1)
  else 1 <<< UInt64.ofNat (kBuckets-1)
termination_by kBuckets - i

/-- `p * total_` is taken exactly and cut down to an integer. -/
def percentile (h : Histogram) (p : ℚ) : UInt64 :=
  if h.total = 0 then 0
  else scan h.counts (UInt64.ofNat ⌊p * h.total.toNat⌋₊) 0 0

end Histogram

/-- The calls that change a histogram. -/
inductive Call
  | record (ns : UInt64)
  | reset

def apply (build : Build) (h : Histogram) : Call → Histogram
  | .record ns => h.record build ns
  | .reset => h.reset

def run (build : Build) (calls : List Call) : Histogram := calls.foldl (apply build) .create

/-- The samples that count after one more call. -/
def keep (samples : List UInt64) : Call → List UInt64
  | .record ns => samples ++ [ns]
  | .reset => []

/-- The samples recorded since the last reset. -/
def samplesOf (calls : List Call) : List UInt64 := calls.foldl keep []

/-! ### Buckets -/

/-- The bucket of a sample: 0 for 0 and 1, else the floor of its logarithm. -/
def bucketOf (s : UInt64) : ℕ := Nat.log 2 s.toNat

theorem shiftLoop_eq (v : UInt64) (bit : ℕ) : shiftLoop v bit = bit + Nat.log 2 v.toNat := by
  fun_induction shiftLoop v bit with
  | case1 v bit hv ih =>
    have hpos : 1 < v.toNat := by simpa [UInt64.lt_iff_toNat_lt] using hv
    rw [ih,toNat_shiftRight_one,Nat.log_of_one_lt_of_le Nat.one_lt_two hpos]
    omega
  | case2 v bit hv =>
    have hle : v.toNat ≤ 1 := by simpa [UInt64.le_iff_toNat_le] using hv
    rw [Nat.log_of_lt (Nat.lt_succ_of_le hle),Nat.add_zero]

theorem clz_eq {ns : UInt64} (hns : ns ≠ 0) :
    63 - ns.toBitVec.clz.toNat = Nat.log 2 ns.toNat := by
  have hne : ns.toBitVec ≠ 0#64 := fun h => hns (UInt64.toBitVec_inj.mp h)
  have hclz : ns.toBitVec.clz.toNat < 64 := BitVec.clz_lt_iff_ne_zero.mpr hne
  have hlow := BitVec.two_pow_sub_clz_le_toNat_of_ne_zero (by decide) hne
  have hhigh : ns.toBitVec.toNat < 2^(64 - ns.toBitVec.clz.toNat) :=
    BitVec.toNat_lt_two_pow_sub_clz
  have hsucc : 64 - ns.toBitVec.clz.toNat = 63 - ns.toBitVec.clz.toNat + 1 := by omega
  rw [hsucc] at hhigh
  have hpos : ns.toNat ≠ 0 := fun h => hns (UInt64.toNat_inj.mp h)
  exact ((Nat.log_eq_iff (.inr ⟨Nat.one_lt_two,hpos⟩)).mpr ⟨hlow,hhigh⟩).symm

theorem bit_eq (build : Build) {ns : UInt64} (hns : ns ≠ 0) :
    bit build ns = bucketOf ns := by
  cases build with
  | gnu => exact clz_eq hns
  | portable => rw [bit,shiftLoop_eq,Nat.zero_add,bucketOf]

theorem bucketOf_lt (ns : UInt64) : bucketOf ns < kBuckets :=
  Nat.log_lt_of_lt_pow' (by decide) ns.toNat_lt

/-- Both branches of the preprocessor find the bucket of the logarithm. -/
theorem bucketFor_val (build : Build) (ns : UInt64) :
    (bucketFor build ns).val = bucketOf ns := by
  rw [bucketFor]
  split_ifs with hns
  · simp [bucketOf,hns]
  · have hmin : Min.min (bit build ns) (kBuckets-1) = bit build ns :=
      Nat.min_eq_left (bit_eq build hns ▸ Nat.le_pred_of_lt (bucketOf_lt ns))
    exact hmin.trans (bit_eq build hns)

theorem bucketOf_mono {s t : UInt64} (h : s ≤ t) : bucketOf s ≤ bucketOf t :=
  Nat.log_mono_right (UInt64.le_iff_toNat_le.mp h)

theorem bucketFor_mono (build : Build) {s t : UInt64} (h : s ≤ t) :
    (bucketFor build s).val ≤ (bucketFor build t).val := by
  rw [bucketFor_val,bucketFor_val]
  exact bucketOf_mono h

theorem two_pow_bucketOf_le (s : UInt64) : 2^bucketOf s ≤ max 1 s.toNat := by
  rcases Nat.eq_zero_or_pos s.toNat with h0 | hpos
  · simp [bucketOf,h0]
  · exact (Nat.pow_log_le_self 2 hpos.ne').trans (Nat.le_max_right ..)

theorem bucketOf_eq_top_iff (s : UInt64) : bucketOf s = 63 ↔ 2^63 ≤ s.toNat := by
  constructor
  · intro h
    have hpos : s.toNat ≠ 0 := fun h0 => by simp [bucketOf,h0] at h
    exact h ▸ Nat.pow_log_le_self 2 hpos
  · intro h
    have hpos : s.toNat ≠ 0 := by omega
    exact (Nat.log_eq_iff (.inr ⟨Nat.one_lt_two,hpos⟩)).mpr ⟨h,s.toNat_lt⟩

/-! ### What a run leaves -/

/-- The members as counts over the samples. -/
structure Tallies (build : Build) (samples : List UInt64) (h : Histogram) : Prop where
  counts : ∀ i, h.counts i = UInt64.ofNat (samples.countP fun s => bucketFor build s = i)
  total : h.total = UInt64.ofNat samples.length
  le_max : ∀ s ∈ samples, s ≤ h.max

variable {build : Build} {samples : List UInt64} {h : Histogram}

theorem tallies_create : Tallies build [] .create where
  counts := fun _ => rfl
  total := rfl
  le_max := by simp

theorem Tallies.record (ht : Tallies build samples h) (ns : UInt64) :
    Tallies build (samples ++ [ns]) (h.record build ns) where
  counts i := by
    simp only [Histogram.record,List.countP_append,List.countP_singleton,UInt64.ofNat_add]
    by_cases hi : bucketFor build ns = i
    · subst hi
      simp [ht.counts]
    · simp [Function.update_of_ne (Ne.symm hi),ht.counts,hi]
  total := by simp [Histogram.record,ht.total,UInt64.ofNat_add]
  le_max s hs := by
    simp only [Histogram.record]
    rcases List.mem_append.mp hs with hs | hs
    · split_ifs with hlt
      · exact UInt64.le_trans (ht.le_max s hs) (UInt64.le_of_lt hlt)
      · exact ht.le_max s hs
    · obtain rfl := List.mem_singleton.mp hs
      split_ifs with hlt
      · exact UInt64.le_refl s
      · exact UInt64.not_lt.mp hlt

theorem Tallies.apply (ht : Tallies build samples h) (c : Call) :
    Tallies build (keep samples c) (apply build h c) := by
  cases c with
  | record ns => exact ht.record ns
  | reset => exact tallies_create

/-- Whatever was called, the members count the samples since the last reset. -/
theorem run_tallies (build : Build) (calls : List Call) :
    Tallies build (samplesOf calls) (run build calls) := by
  have hfrom : ∀ (samples : List UInt64) (h : Histogram), Tallies build samples h →
      Tallies build (calls.foldl keep samples) (calls.foldl (LatencyHistogram.apply build) h) := by
    induction calls with
    | nil => exact fun _ _ ht => ht
    | cons c calls ih => exact fun _ _ ht => ih _ _ (ht.apply c)
  exact hfrom [] .create tallies_create

/-! ### The scan -/

/-- The samples of the buckets before bucket `i`. -/
def below (build : Build) (samples : List UInt64) (i : ℕ) : ℕ :=
  samples.countP fun s => (bucketFor build s).val < i

theorem below_zero : below build samples 0 = 0 := by simp [below]

theorem below_mono {i j : ℕ} (hij : i ≤ j) : below build samples i ≤ below build samples j :=
  List.countP_mono_left fun _ _ h => decide_eq_true ((of_decide_eq_true h).trans_le hij)

theorem below_succ {i : ℕ} (hi : i < kBuckets) :
    below build samples (i+1) = below build samples i +
      samples.countP fun s => bucketFor build s = ⟨i,hi⟩ := by
  induction samples with
  | nil => rfl
  | cons s samples ih =>
    simp only [below,List.countP_cons,decide_eq_true_eq] at ih ⊢
    rw [ih]
    have hval : bucketFor build s = ⟨i,hi⟩ ↔ (bucketFor build s).val = i := Fin.ext_iff
    simp only [hval]
    split_ifs <;> omega

theorem sum_countP (f : UInt64 → Fin kBuckets) (samples : List UInt64) :
    ∑ i, samples.countP (fun s => f s = i) = samples.length := by
  induction samples with
  | nil => simp
  | cons s samples ih =>
    simp [List.countP_cons,Finset.sum_add_distrib,ih]

theorem Tallies.cum_next (ht : Tallies build samples h) {i : ℕ} (hi : i < kBuckets) :
    UInt64.ofNat (below build samples i) + h.counts ⟨i,hi⟩ =
      UInt64.ofNat (below build samples (i+1)) := by
  rw [ht.counts,below_succ hi,UInt64.ofNat_add]

theorem toNat_below (hlen : samples.length < 2^64) (i : ℕ) :
    (UInt64.ofNat (below build samples i)).toNat = below build samples i :=
  UInt64.toNat_ofNat_of_lt' (List.countP_le_length.trans_lt hlen)

/-- While `percentile` scans, `cum` is the number of samples of the buckets it has passed. -/
theorem Tallies.scan_eq (ht : Tallies build samples h) (hlen : samples.length < 2^64)
    {target : UInt64} {b : ℕ} (hb : b < kBuckets)
    (hlow : below build samples b ≤ target.toNat)
    (hhigh : target.toNat < below build samples (b+1)) {i : ℕ} (hi : i ≤ b) {cum : UInt64}
    (hcum : cum = UInt64.ofNat (below build samples i)) :
    Histogram.scan h.counts target cum i = 1 <<< UInt64.ofNat b := by
  fun_induction Histogram.scan h.counts target cum i with
  | case1 cum i hlt hstop =>
    rw [hcum,ht.cum_next hlt,UInt64.lt_iff_toNat_lt,toNat_below hlen] at hstop
    have hbi : b ≤ i := by
      by_contra hib
      exact absurd (below_mono (by omega)) (hlow.trans_lt hstop).not_ge
    rw [le_antisymm hi hbi]
  | case2 cum i hlt hgo ih =>
    rw [hcum,ht.cum_next hlt] at hgo ih
    rw [UInt64.lt_iff_toNat_lt,toNat_below hlen] at hgo
    rw [hcum,ht.cum_next hlt]
    refine ih ?_ rfl
    by_contra hib
    obtain rfl : i = b := by omega
    exact hgo hhigh
  | case3 cum i hge => omega

/-- A target that no bucket passes falls through to the top bucket. -/
theorem Tallies.scan_eq_top (ht : Tallies build samples h) (hlen : samples.length < 2^64)
    {target : UInt64} (htarget : samples.length ≤ target.toNat) {i : ℕ} {cum : UInt64}
    (hcum : cum = UInt64.ofNat (below build samples i)) :
    Histogram.scan h.counts target cum i = 1 <<< UInt64.ofNat (kBuckets-1) := by
  fun_induction Histogram.scan h.counts target cum i with
  | case1 cum i hlt hstop =>
    rw [hcum,ht.cum_next hlt,UInt64.lt_iff_toNat_lt,toNat_below hlen] at hstop
    exact absurd (List.countP_le_length.trans htarget) hstop.not_ge
  | case2 cum i hlt hgo ih =>
    exact ih (by rw [hcum,ht.cum_next hlt])
  | case3 cum i hge => rfl

theorem toNat_one_shiftLeft {b : ℕ} (hb : b < kBuckets) :
    ((1 : UInt64) <<< UInt64.ofNat b).toNat = 2^b := by
  have hlt : 2^b < 2^64 := Nat.pow_lt_pow_right Nat.one_lt_two hb
  have hamount : (UInt64.ofNat b).toNat % 64 = b := by
    rw [UInt64.toNat_ofNat_of_lt' (hb.trans (by decide)),Nat.mod_eq_of_lt hb]
  rw [UInt64.toNat_shiftLeft,hamount,Nat.shiftLeft_eq]
  simpa using hlt

/-! ### Ranks -/

/-- The samples in ascending order. -/
def sorted (samples : List UInt64) : List UInt64 := samples.mergeSort fun s t => s ≤ t

theorem sorted_perm (samples : List UInt64) : (sorted samples).Perm samples :=
  List.mergeSort_perm samples _

theorem sorted_pairwise (samples : List UInt64) : (sorted samples).Pairwise (· ≤ ·) := by
  have hsorted := @List.pairwise_mergeSort UInt64 (fun s t => decide (s ≤ t))
    (by simpa using fun a b c => UInt64.le_trans) (by simpa using UInt64.le_total) samples
  exact hsorted.imp of_decide_eq_true

theorem length_sorted (samples : List UInt64) : (sorted samples).length = samples.length :=
  (sorted_perm samples).length_eq

theorem sorted_le {i j : ℕ} (hij : i ≤ j) {s t : UInt64} (hs : (sorted samples)[i]? = some s)
    (ht : (sorted samples)[j]? = some t) : s ≤ t := by
  obtain ⟨hi,rfl⟩ := List.getElem?_eq_some_iff.mp hs
  obtain ⟨hj,rfl⟩ := List.getElem?_eq_some_iff.mp ht
  rcases hij.eq_or_lt with rfl | hlt
  · exact UInt64.le_refl _
  · exact List.pairwise_iff_getElem.mp (sorted_pairwise samples) i j hi hj hlt

/-- Nothing is above the sample of the last rank. -/
theorem exists_last {s : UInt64} (hs : s ∈ samples) :
    ∃ t, (sorted samples)[samples.length-1]? = some t ∧ s ≤ t := by
  obtain ⟨i,hi⟩ := List.mem_iff_getElem?.mp ((sorted_perm samples).mem_iff.mpr hs)
  have hlt : i < samples.length := by
    rw [← length_sorted]
    exact (List.getElem?_eq_some_iff.mp hi).1
  have hlast : samples.length-1 < (sorted samples).length := by
    rw [length_sorted]
    omega
  exact ⟨_,List.getElem?_eq_getElem hlast,
    sorted_le (Nat.le_pred_of_lt hlt) hi (List.getElem?_eq_getElem hlast)⟩

/-- The buckets up to `i` hold the samples of the ranks before their number. -/
theorem lt_below_iff {k : ℕ} (hk : k < (sorted samples).length) (i : ℕ) :
    k < below build samples i ↔ (bucketFor build (sorted samples)[k]).val < i := by
  have hcuts : Cuts (fun s => decide ((bucketFor build s).val < i)) (sorted samples) :=
    (sorted_pairwise samples).imp fun hab hb =>
      decide_eq_true ((bucketFor_mono build hab).trans_lt (of_decide_eq_true hb))
  rw [below,← (sorted_perm samples).countP_eq,hcuts.lt_countP_iff hk,decide_eq_true_eq]

/-- The rank that `percentile(p)` stands for. -/
def rank (n : ℕ) (p : ℚ) : ℕ := min ⌊p * n⌋₊ (n-1)

/-- What a histogram promises at `p` of the samples that it counts. -/
structure ExactAt (h : Histogram) (samples : List UInt64) (p : ℚ) : Prop where
  bucket : ∃ s, (sorted samples)[rank samples.length p]? = some s ∧
    (h.percentile p).toNat = 2^bucketOf s
  monotone : ∀ q, 0 ≤ q → q ≤ p → h.percentile q ≤ h.percentile p
  le_max : (h.percentile p).toNat ≤ max 1 h.max.toNat
  counts_sum : ∑ i, (h.counts i).toNat = h.total.toNat

theorem floor_lt {n : ℕ} (hn : n ≠ 0) {p : ℚ} (hp : p < 1) : ⌊p * n⌋₊ < n := by
  have hpos : (0 : ℚ) < n := by exact_mod_cast Nat.pos_of_ne_zero hn
  exact (Nat.floor_lt' hn).mpr (by simpa using mul_lt_mul_of_pos_right hp hpos)

theorem rank_eq {n : ℕ} (hn : n ≠ 0) {p : ℚ} (hp : p < 1) : rank n p = ⌊p * n⌋₊ :=
  Nat.min_eq_left (Nat.le_pred_of_lt (floor_lt hn hp))

theorem rank_one (n : ℕ) : rank n 1 = n-1 := by simp [rank]

theorem rank_mono {n : ℕ} {p q : ℚ} (hqp : q ≤ p) : rank n q ≤ rank n p :=
  min_le_min_right _ (Nat.floor_le_floor (mul_le_mul_of_nonneg_right hqp (Nat.cast_nonneg n)))

section
variable (ht : Tallies build samples h) (hlen : samples.length < 2^64) (hne : samples ≠ [])
include ht hlen

theorem Tallies.toNat_total : h.total.toNat = samples.length := by
  rw [ht.total,UInt64.toNat_ofNat_of_lt' hlen]

theorem Tallies.counts_sum : ∑ i, (h.counts i).toNat = h.total.toNat := by
  have hcount : ∀ i, (h.counts i).toNat = samples.countP fun s => bucketFor build s = i := by
    intro i
    rw [ht.counts,UInt64.toNat_ofNat_of_lt' (List.countP_le_length.trans_lt hlen)]
  rw [ht.toNat_total hlen,← sum_countP (bucketFor build) samples]
  exact Finset.sum_congr rfl fun i _ => hcount i

include hne

theorem Tallies.percentile_eq (p : ℚ) : h.percentile p =
    Histogram.scan h.counts (UInt64.ofNat ⌊p * samples.length⌋₊) 0 0 := by
  have hpos : h.total ≠ 0 := fun h0 => hne (List.length_eq_zero_iff.mp (by
    rw [← ht.toNat_total hlen,h0]; rfl))
  rw [Histogram.percentile,if_neg hpos,ht.toNat_total hlen]

/-- Below the whole, the scan stops in the bucket of the sample of that rank. -/
theorem Tallies.percentile_lt_one {p : ℚ} (hp : p < 1) :
    ∃ s, (sorted samples)[rank samples.length p]? = some s ∧
      (h.percentile p).toNat = 2^bucketOf s := by
  have hn : samples.length ≠ 0 := by simpa using hne
  have hk : ⌊p * samples.length⌋₊ < (sorted samples).length := by
    rw [length_sorted]
    exact floor_lt hn hp
  have htarget : (UInt64.ofNat ⌊p * samples.length⌋₊).toNat = ⌊p * samples.length⌋₊ :=
    UInt64.toNat_ofNat_of_lt' ((floor_lt hn hp).trans hlen)
  refine ⟨(sorted samples)[⌊p * samples.length⌋₊],?_,?_⟩
  · rw [rank_eq hn hp,List.getElem?_eq_getElem hk]
  · have hb := bucketFor build (sorted samples)[⌊p * samples.length⌋₊] |>.isLt
    rw [ht.percentile_eq hlen hne,ht.scan_eq hlen hb (i := 0) ?_ ?_ (Nat.zero_le _) ?_,
      toNat_one_shiftLeft hb,bucketFor_val]
    · rw [htarget]
      exact Nat.le_of_not_lt fun hlt => absurd ((lt_below_iff hk _).mp hlt) (lt_irrefl _)
    · rw [htarget]
      exact (lt_below_iff hk _).mpr (Nat.lt_succ_self _)
    · rw [below_zero]
      rfl

/-- At the whole, the scan falls through whatever the samples are. -/
theorem Tallies.percentile_one : (h.percentile 1).toNat = 2^63 := by
  have htarget : (UInt64.ofNat samples.length).toNat = samples.length :=
    UInt64.toNat_ofNat_of_lt' hlen
  rw [ht.percentile_eq hlen hne,one_mul,Nat.floor_natCast,
    ht.scan_eq_top hlen htarget.ge (i := 0) (by rw [below_zero]; rfl),
    toNat_one_shiftLeft (show kBuckets-1 < kBuckets from Nat.lt_succ_self 63)]
  rfl

theorem Tallies.percentile_mono {p q : ℚ} (hqp : q ≤ p) (hp : p ≤ 1) :
    h.percentile q ≤ h.percentile p := by
  rw [UInt64.le_iff_toNat_le]
  rcases (hqp.trans hp).lt_or_eq with hq1 | rfl
  · obtain ⟨s,hs,hqs⟩ := ht.percentile_lt_one hlen hne hq1
    rw [hqs]
    rcases hp.lt_or_eq with hp1 | rfl
    · obtain ⟨t,ht',hpt⟩ := ht.percentile_lt_one hlen hne hp1
      rw [hpt]
      exact Nat.pow_le_pow_right Nat.two_pos (bucketOf_mono (sorted_le (rank_mono hqp) hs ht'))
    · rw [ht.percentile_one hlen hne]
      exact Nat.pow_le_pow_right Nat.two_pos (Nat.le_pred_of_lt (bucketOf_lt s))
  · rw [le_antisymm hp hqp]

end

/-- Below the whole every percentile is exact. At the whole it is the top bucket, which is
right only where a sample lies there. -/
theorem run_percentile_exact_iff {calls : List Call} (hne : samplesOf calls ≠ [])
    (hlen : (samplesOf calls).length < 2^53) {p : ℚ} (hp : 0 ≤ p ∧ p ≤ 1) :
    ExactAt (run build calls) (samplesOf calls) p ↔
      p < 1 ∨ ∃ s ∈ samplesOf calls, 2^63 ≤ s.toNat := by
  have ht := run_tallies build calls
  have hfit : (samplesOf calls).length < 2^64 := hlen.trans (by decide)
  have hmax : ∀ {k s}, (sorted (samplesOf calls))[k]? = some s →
      2^bucketOf s ≤ max 1 (run build calls).max.toNat := fun hs =>
    (two_pow_bucketOf_le _).trans (max_le_max_left 1 (UInt64.le_iff_toNat_le.mp
      (ht.le_max _ ((sorted_perm _).mem_iff.mp (List.mem_of_getElem? hs)))))
  constructor
  · intro hexact
    rcases hp.2.lt_or_eq with hlt | rfl
    · exact .inl hlt
    · obtain ⟨s,hs,hps⟩ := hexact.bucket
      rw [ht.percentile_one hfit hne] at hps
      have htop : bucketOf s = 63 := (Nat.pow_right_injective le_rfl hps).symm
      exact .inr ⟨s,(sorted_perm _).mem_iff.mp (List.mem_of_getElem? hs),
        (bucketOf_eq_top_iff s).mp htop⟩
  · intro hcond
    have hbucket : ∃ s, (sorted (samplesOf calls))[rank (samplesOf calls).length p]? = some s ∧
        ((run build calls).percentile p).toNat = 2^bucketOf s := by
      rcases hp.2.lt_or_eq with hlt | rfl
      · exact ht.percentile_lt_one hfit hne hlt
      · obtain ⟨s,hs,htop⟩ := hcond.resolve_left (lt_irrefl 1)
        obtain ⟨t,hlast,hst⟩ := exists_last hs
        have htt : bucketOf t = 63 :=
          (bucketOf_eq_top_iff t).mpr (htop.trans (UInt64.le_iff_toNat_le.mp hst))
        exact ⟨t,by rw [rank_one,hlast],by rw [ht.percentile_one hfit hne,htt]⟩
    obtain ⟨s,hs,hps⟩ := hbucket
    exact { bucket := ⟨s,hs,hps⟩
            monotone := fun q _ hqp => ht.percentile_mono hfit hne hqp hp.2
            le_max := hps.trans_le (hmax hs)
            counts_sum := ht.counts_sum hfit }

theorem run_percentile_exact_two_samples :
    ExactAt (run .gnu [.record 0,.reset,.record 1,.record 700])
      (samplesOf [.record 0,.reset,.record 1,.record 700]) (1/2) :=
  (run_percentile_exact_iff (by decide) (by decide) (by norm_num)).mpr (.inl (by norm_num))

/-- The whole of one sample of a nanosecond is reported as 2^63 nanoseconds. -/
theorem percentile_whole_above_max :
    (run .gnu [.record 1]).max = 1 ∧ ((run .gnu [.record 1]).percentile 1).toNat = 2^63 ∧
      ¬ExactAt (run .gnu [.record 1]) (samplesOf [.record 1]) 1 := by
  have hwhole : ((run .gnu [.record 1]).percentile 1).toNat = 2^63 :=
    (run_tallies .gnu [.record 1]).percentile_one (by decide) (by decide)
  have hmax : (run .gnu [.record 1]).max = 1 := rfl
  refine ⟨hmax,hwhole,fun hexact => ?_⟩
  have hle := hexact.le_max
  rw [hwhole,hmax] at hle
  exact absurd hle (by decide)

end LatencyHistogram
end Marketlib
