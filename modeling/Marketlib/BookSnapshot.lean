import Marketlib.BookAggregate

/-! What a book shows: both sides sorted, their best levels, and the fixed-depth
snapshot that is published. -/

namespace Marketlib

namespace Snapshot

variable {maxLevels depth : ℕ}

theorem copyLevels_toList (l : Levels maxLevels) {n : ℕ} (hn : n = min l.count depth) :
    (copyLevels l n : Vector PriceLevel depth).toList =
      l.span.take depth ++ List.replicate (depth-l.count) ⟨0,0,0⟩ := by
  apply List.ext_getElem
  · simp
    omega
  intro i hi hi'
  have hcount := l.count_le
  have hdepth : i < depth := by simpa using hi
  rw [List.getElem_append]
  simp only [copyLevels,Vector.getElem_toList,Vector.getElem_ofFn,List.getElem_take,
    List.getElem_replicate,List.length_take,Levels.span_length]
  by_cases h : i < n
  · have hi' : i < maxLevels := by omega
    rw [if_pos h,dif_pos (by omega),Vector.getElem?_eq_getElem hi',Option.getD_some,
      Levels.span_getElem _ _ (by rw [Levels.span_length]; omega) hi']
    rfl
  · rw [if_neg h,dif_neg (by omega)]

theorem copyLevels_zero (l : Levels maxLevels) :
    (copyLevels l 0 : Vector PriceLevel depth).toList = List.replicate depth ⟨0,0,0⟩ := by
  simp [copyLevels,List.ext_getElem_iff]

end Snapshot

namespace OrderBook

open OrderTable

variable {maxLevels maxOrders : ℕ}

/-- What readers of a book rely on. -/
structure WellShown (b : OrderBook maxLevels maxOrders) : Prop where
  bids_descending : (b.bids.span.map PriceLevel.price).Pairwise (· > ·)
  asks_ascending : (b.asks.span.map PriceLevel.price).Pairwise (· < ·)
  bids_length : b.bids.span.length ≤ maxLevels
  asks_length : b.asks.span.length ≤ maxLevels
  bids_once : (b.bids.span.map PriceLevel.price).Nodup
  asks_once : (b.asks.span.map PriceLevel.price).Nodup
  bestBid_isSome : b.bestBid.isSome ↔ b.bids.span ≠ []
  bestBid_highest : ∀ lv ∈ b.bestBid, lv ∈ b.bids.span ∧ ∀ lv' ∈ b.bids.span, lv'.price ≤ lv.price
  bestAsk_isSome : b.bestAsk.isSome ↔ b.asks.span ≠ []
  bestAsk_lowest : ∀ lv ∈ b.bestAsk, lv ∈ b.asks.span ∧ ∀ lv' ∈ b.asks.span, lv.price ≤ lv'.price
  snapshot_bids : ∀ depth, min b.bids.count depth < 2^32 →
    (b.snapshot depth).bidCount.toNat = min b.bids.count depth ∧
    (b.snapshot depth).bids.toList =
      b.bids.span.take depth ++ List.replicate (depth-b.bids.count) ⟨0,0,0⟩
  snapshot_asks : ∀ depth, min b.asks.count depth < 2^32 →
    (b.snapshot depth).askCount.toNat = min b.asks.count depth ∧
    (b.snapshot depth).asks.toList =
      b.asks.span.take depth ++ List.replicate (depth-b.asks.count) ⟨0,0,0⟩

/-- The first level of a best-first side is at least as good as every listed one. -/
theorem head_best {side : Side} {l : Levels maxLevels} (hl : l.BestFirst side) {lv : PriceLevel}
    (h : l.span.head? = some lv) :
    lv ∈ l.span ∧ ∀ lv' ∈ l.span, lv' = lv ∨ Better side lv.price lv'.price := by
  obtain ⟨rest,hrest⟩ := List.head?_eq_some_iff.mp h
  rw [Levels.BestFirst,hrest,KeySorted.Sorted,List.pairwise_cons] at hl
  rw [hrest]
  refine ⟨List.mem_cons_self,fun lv' hlv' => ?_⟩
  rcases List.mem_cons.mp hlv' with heq | hmem
  · exact .inl heq
  · exact .inr (hl.1 lv' hmem)

theorem toNat_snapshotCount {n : ℕ} (h : n < 2^32) : (UInt32.ofNat n).toNat = n :=
  UInt32.toNat_ofNat_of_lt' h

theorem BestFirst.wellShown {b : OrderBook maxLevels maxOrders} (hb : b.BestFirst) :
    b.WellShown where
  bids_descending := List.pairwise_map.mpr (hb .bid)
  asks_ascending := List.pairwise_map.mpr (hb .ask)
  bids_length := by rw [Levels.span_length]; exact b.bids.count_le
  asks_length := by rw [Levels.span_length]; exact b.asks.count_le
  bids_once := (List.pairwise_map.mpr (hb .bid)).imp fun h => ne_of_gt h
  asks_once := (List.pairwise_map.mpr (hb .ask)).imp fun h => ne_of_lt h
  bestBid_isSome := by simp [bestBid]
  bestBid_highest := fun lv hlv => by
    obtain ⟨hmem,hbest⟩ := head_best (hb .bid) hlv
    exact ⟨hmem,fun lv' hlv' => (hbest lv' hlv').elim (fun h => h ▸ le_rfl) le_of_lt⟩
  bestAsk_isSome := by simp [bestAsk]
  bestAsk_lowest := fun lv hlv => by
    obtain ⟨hmem,hbest⟩ := head_best (hb .ask) hlv
    exact ⟨hmem,fun lv' hlv' => (hbest lv' hlv').elim (fun h => h ▸ le_rfl) le_of_lt⟩
  snapshot_bids := fun depth h => by
    have hcount : (b.snapshot depth).bidCount.toNat = min b.bids.count depth :=
      toNat_snapshotCount h
    exact ⟨hcount,Snapshot.copyLevels_toList b.bids hcount⟩
  snapshot_asks := fun depth h => by
    have hcount : (b.snapshot depth).askCount.toNat = min b.asks.count depth :=
      toNat_snapshotCount h
    exact ⟨hcount,Snapshot.copyLevels_toList b.asks hcount⟩

/-- Every run of the four operations leaves a book that is shown well, whatever its
arguments, as long as no level index runs past the array. -/
theorem run_wellShown {b : OrderBook maxLevels maxOrders} {symbolId : UInt32} {ops : List Op}
    (hrun : Transition.run step (create symbolId) ops = some b) : b.WellShown :=
  (reachable_bestFirst (Transition.reachable_iff_run.mpr ⟨ops,hrun⟩)).wellShown

theorem run_wellShown_full :
    ∃ b : OrderBook 2 8, Transition.run step (create 7) [.add 1 .ask 100 10,.add 2 .ask 102 5,
        .add 3 .ask 101 4,.add 4 .bid 99 1,.execute 2 5 none] = some b ∧ b.WellShown :=
  ⟨_,rfl,run_wellShown (show Transition.run step (create 7) [.add 1 .ask 100 10,
    .add 2 .ask 102 5,.add 3 .ask 101 4,.add 4 .bid 99 1,.execute 2 5 none] = some _ from rfl)⟩

/-- A side with as many levels as a 32-bit count has values is published as empty. -/
theorem snapshot_wraps {n : ℕ} (hone : 1 < n) (hid : n ≤ 2^64) (hwrap : UInt32.ofNat n = 0) :
    ∃ b : OrderBook n n,
      Transition.run step (create 0) (addEach .ask (fun i => i) n) = some b ∧
      b.asks.span.length = n ∧ (∃ lv ∈ b.asks.span, lv.price = 1) ∧
      (b.snapshot n).askCount = 0 ∧ (b.snapshot n).asks.toList = List.replicate n ⟨0,0,0⟩ := by
  have hprices : ((Finset.range n).image fun i : ℕ => (i : Price)).card ≤ n :=
    Finset.card_image_le.trans_eq (Finset.card_range n)
  obtain ⟨b,hrun,hmatch⟩ := addEach_matches .ask (fun i => i) le_rfl hid hprices 0
  obtain ⟨_,_,hcount⟩ := placeAll_addEach .ask (fun i => i) le_rfl hid
  have hresting : ∀ i < n, restingCount (placeAll n ∅ (addEach .ask (fun i => i) n)) .ask i ≠ 0 := by
    intro i hi
    rw [hcount,← Nat.pos_iff_ne_zero,List.countP_pos_iff]
    exact ⟨i,List.mem_range.mpr hi,by simp⟩
  have hlevels : b.asks.count = n := by
    apply le_antisymm b.asks.count_le
    have hall : (Finset.range n).image (fun i : ℕ => (i : Price)) ⊆
        restingPrices (placeAll n ∅ (addEach .ask (fun i => i) n)) .ask := by
      intro p hp
      obtain ⟨i,hi,rfl⟩ := Finset.mem_image.mp hp
      exact mem_restingPrices.mpr (hresting i (Finset.mem_range.mp hi))
    have hcard := Finset.card_le_card hall
    rw [Finset.card_image_of_injective _ Nat.cast_injective,Finset.card_range] at hcard
    exact hcard.trans_eq (hmatch.count .ask).symm
  have hask : (b.snapshot n).askCount = 0 := by
    simpa [OrderBook.snapshot,hlevels] using hwrap
  refine ⟨b,hrun,by rw [Levels.span_length,hlevels],?_,hask,?_⟩
  · have hspan : b.asks.span = recompute (placeAll n ∅ (addEach .ask (fun i => i) n)) .ask :=
      hmatch.span .ask
    rw [hspan]
    exact ⟨aggregate _ .ask 1,mem_recompute.mpr ⟨hresting 1 hone,rfl⟩,rfl⟩
  · have hcells : (b.snapshot n).asks = Snapshot.copyLevels b.asks (b.snapshot n).askCount.toNat :=
      rfl
    rw [hcells,hask]
    exact Snapshot.copyLevels_zero b.asks

theorem snapshot_of_full_width_empty :
    ∃ b : OrderBook (2^32) (2^32),
      Transition.run step (create 0) (addEach .ask (fun i => i) (2^32)) = some b ∧
      b.asks.span.length = 2^32 ∧ (∃ lv ∈ b.asks.span, lv.price = 1) ∧
      (b.snapshot (2^32)).askCount = 0 ∧
      (b.snapshot (2^32)).asks.toList = List.replicate (2^32) ⟨0,0,0⟩ :=
  snapshot_wraps (by omega) (by omega) (by decide)

end OrderBook
end Marketlib
