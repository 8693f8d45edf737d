import Mathlib.Data.Finset.Sort
import Marketlib.KeySorted
import Marketlib.MapTotals
import Marketlib.BookLevels

/-! The book as a function of the resting orders alone. An abstract book is only its
order table; what the array book has to show is recomputed from the table. -/

namespace Marketlib

abbrev OrderTable := Finmap fun _ : OrderId => OrderLoc

namespace OrderTable

open OrderBook

/-- The order rests on this side at this price. -/
def RestsAt (side : Side) (price : Price) (loc : OrderLoc) : Prop :=
  loc.side = side ∧ loc.price = price

instance (side : Side) (price : Price) : DecidablePred (RestsAt side price) :=
  fun loc => inferInstanceAs (Decidable (loc.side = side ∧ loc.price = price))

def restingCount (t : OrderTable) (side : Side) (price : Price) : ℕ :=
  MapTotals.tally (RestsAt side price) t

/-- Sum of the remaining quantities, modulo `2^64`. -/
def restingQty (t : OrderTable) (side : Side) (price : Price) : Qty :=
  MapTotals.total (fun loc => if RestsAt side price loc then loc.qty else 0) t

/-- The prices with at least one resting order. -/
def restingPrices (t : OrderTable) (side : Side) : Finset Price :=
  (((t.entries.map Sigma.snd).filter fun loc => loc.side = side).map OrderLoc.price).toFinset

/-- The level that the orders resting at a price add up to. -/
def aggregate (t : OrderTable) (side : Side) (price : Price) : PriceLevel :=
  ⟨price,restingQty t side price,UInt32.ofNat (restingCount t side price)⟩

/-- The level to be listed at a price, if any. -/
def levelAt (t : OrderTable) (side : Side) (price : Price) : Option PriceLevel :=
  if restingCount t side price = 0 then none else some (aggregate t side price)

/-- The prices with resting orders, best first. -/
def rankedPrices (t : OrderTable) : Side → List Price
  | .bid => (restingPrices t .bid).sort (· ≥ ·)
  | .ask => (restingPrices t .ask).sort (· ≤ ·)

/-- One side of the book, recomputed from the resting orders. -/
def recompute (t : OrderTable) (side : Side) : List PriceLevel :=
  (rankedPrices t side).map (aggregate t side)

/-- What an operation does to the table. -/
def place (maxOrders : ℕ) (t : OrderTable) : Op → OrderTable
  | .add id side price qty =>
    if maxOrders ≤ t.keys.card then t else t.insert id ⟨side,price,qty⟩
  | .cancel id => t.erase id
  | .modify id newQty =>
    match t.lookup id with
    | none => t
    | some loc => t.insert id { loc with qty := newQty }
  | .execute id execQty _ =>
    match t.lookup id with
    | none => t
    | some loc =>
      if loc.qty-execQty = 0 then t.erase id
      else t.insert id { loc with qty := loc.qty-execQty }

def placeAll (maxOrders : ℕ) (t : OrderTable) (ops : List Op) : OrderTable :=
  ops.foldl (place maxOrders) t

@[simp] theorem placeAll_nil (maxOrders : ℕ) (t : OrderTable) : placeAll maxOrders t [] = t := rfl

@[simp] theorem placeAll_cons (maxOrders : ℕ) (t : OrderTable) (op : Op) (ops : List Op) :
    placeAll maxOrders t (op :: ops) = placeAll maxOrders (place maxOrders t op) ops := rfl

/-! ### Counting -/

theorem mem_restingPrices {t : OrderTable} {side : Side} {price : Price} :
    price ∈ restingPrices t side ↔ restingCount t side price ≠ 0 := by
  rw [← Nat.pos_iff_ne_zero,restingCount,MapTotals.tally_pos]
  simp only [restingPrices,Multiset.mem_toFinset,Multiset.mem_map,Multiset.mem_filter,RestsAt]
  constructor
  · rintro ⟨loc,⟨⟨⟨id,loc⟩,he,rfl⟩,hside⟩,hprice⟩
    exact ⟨id,loc,Finmap.lookup_eq_some_iff.mpr he,hside,hprice⟩
  · rintro ⟨id,loc,hloc,hside,hprice⟩
    exact ⟨loc,⟨⟨⟨id,loc⟩,Finmap.lookup_eq_some_iff.mp hloc,rfl⟩,hside⟩,hprice⟩

theorem restingCount_le_card (t : OrderTable) (side : Side) (price : Price) :
    restingCount t side price ≤ t.keys.card := MapTotals.tally_le_card _

theorem restingQty_eq_zero {t : OrderTable} {side : Side} {price : Price}
    (h : restingCount t side price = 0) : restingQty t side price = 0 :=
  MapTotals.total_eq_zero (RestsAt side price) (fun _ hloc => if_neg hloc) h

@[simp] theorem levelAt_eq_none {t : OrderTable} {side : Side} {price : Price} :
    levelAt t side price = none ↔ restingCount t side price = 0 := by
  simp [levelAt]

theorem levelAt_eq_some {t : OrderTable} {side : Side} {price : Price} {lv : PriceLevel} :
    levelAt t side price = some lv ↔
      restingCount t side price ≠ 0 ∧ aggregate t side price = lv := by
  simp [levelAt]

theorem restingCount_insert {t : OrderTable} {id : OrderId} (h : id ∉ t) (loc : OrderLoc)
    (side : Side) (price : Price) : restingCount (t.insert id loc) side price =
      (if RestsAt side price loc then 1 else 0) + restingCount t side price :=
  MapTotals.total_insert (fun loc => if RestsAt side price loc then 1 else 0) h

theorem restingQty_insert {t : OrderTable} {id : OrderId} (h : id ∉ t) (loc : OrderLoc)
    (side : Side) (price : Price) : restingQty (t.insert id loc) side price =
      (if RestsAt side price loc then loc.qty else 0) + restingQty t side price :=
  MapTotals.total_insert _ h

theorem restingCount_erase {t : OrderTable} {id : OrderId} {loc : OrderLoc}
    (h : t.lookup id = some loc) (side : Side) (price : Price) : restingCount t side price =
      (if RestsAt side price loc then 1 else 0) + restingCount (t.erase id) side price :=
  MapTotals.total_erase (fun loc => if RestsAt side price loc then 1 else 0) h

theorem restingQty_erase {t : OrderTable} {id : OrderId} {loc : OrderLoc}
    (h : t.lookup id = some loc) (side : Side) (price : Price) : restingQty t side price =
      (if RestsAt side price loc then loc.qty else 0) + restingQty (t.erase id) side price :=
  MapTotals.total_erase _ h

/-- An order keeps its side and price, so changing its quantity moves no order. -/
theorem restingCount_setQty {t : OrderTable} {id : OrderId} {loc : OrderLoc}
    (h : t.lookup id = some loc) (qty : Qty) (side : Side) (price : Price) :
    restingCount (t.insert id { loc with qty := qty }) side price = restingCount t side price := by
  rw [restingCount_erase h]
  exact MapTotals.total_replace (fun loc => if RestsAt side price loc then 1 else 0) _

theorem restingQty_setQty {t : OrderTable} {id : OrderId} {loc : OrderLoc}
    (h : t.lookup id = some loc) (qty : Qty) (side : Side) (price : Price) :
    restingQty (t.insert id { loc with qty := qty }) side price =
      if RestsAt side price loc then restingQty t side price-loc.qty+qty
      else restingQty t side price := by
  rw [restingQty_erase h]
  refine (MapTotals.total_replace (fun loc => if RestsAt side price loc then loc.qty else 0)
    _).trans ?_
  have hrest : RestsAt side price { loc with qty := qty } ↔ RestsAt side price loc := Iff.rfl
  by_cases hloc : RestsAt side price loc
  · simp only [hrest,hloc,if_true,add_sub_cancel_left]
    exact add_comm _ _
  · simp only [hrest,hloc,if_false]
    rfl

/-! ### The level of each price after an operation -/

theorem levelAt_insert {t : OrderTable} {id : OrderId} (h : id ∉ t) (loc : OrderLoc)
    (s : Side) (p : Price) : levelAt (t.insert id loc) s p =
      if s = loc.side ∧ p = loc.price then
        some (withOrder loc.price loc.qty (levelAt t loc.side loc.price))
      else levelAt t s p := by
  by_cases hloc : s = loc.side ∧ p = loc.price
  · obtain ⟨rfl,rfl⟩ := hloc
    have hself : RestsAt loc.side loc.price loc := ⟨rfl,rfl⟩
    rw [if_pos ⟨rfl,rfl⟩,levelAt_eq_some,aggregate,restingCount_insert h,restingQty_insert h,
      if_pos hself,if_pos hself]
    refine ⟨by omega,?_⟩
    by_cases hzero : restingCount t loc.side loc.price = 0
    · rw [levelAt_eq_none.mpr hzero,hzero,restingQty_eq_zero hzero]
      simp [withOrder]
    · rw [levelAt_eq_some.mpr ⟨hzero,rfl⟩]
      simp [withOrder,aggregate,add_comm]
  · have hother : ¬RestsAt s p loc := fun h' => hloc ⟨h'.1.symm,h'.2.symm⟩
    simp only [levelAt,aggregate,restingCount_insert h,restingQty_insert h,if_neg hother,
      if_neg hloc,zero_add]

/-- Taking an order off its level gives the level of the remaining orders, unless the
32-bit counter comes back to zero before the orders are gone. -/
theorem levelAt_erase {t : OrderTable} {id : OrderId} {loc : OrderLoc}
    (h : t.lookup id = some loc)
    (hcount : restingCount t loc.side loc.price % 2^32 = 1 →
      restingCount t loc.side loc.price = 1) (s : Side) (p : Price) :
    levelAt (t.erase id) s p =
      if s = loc.side ∧ p = loc.price then
        (levelAt t loc.side loc.price).bind (withoutOrder loc.qty)
      else levelAt t s p := by
  by_cases hloc : s = loc.side ∧ p = loc.price
  · obtain ⟨rfl,rfl⟩ := hloc
    have hself : RestsAt loc.side loc.price loc := ⟨rfl,rfl⟩
    have hc := restingCount_erase h loc.side loc.price
    have hq := restingQty_erase h loc.side loc.price
    rw [if_pos hself] at hc hq
    have hlv : levelAt t loc.side loc.price = some (aggregate t loc.side loc.price) :=
      levelAt_eq_some.mpr ⟨by omega,rfl⟩
    rw [hlv,if_pos ⟨rfl,rfl⟩,Option.bind_some,withoutOrder]
    have hcount' : (aggregate t loc.side loc.price).orderCount-1 =
        UInt32.ofNat (restingCount (t.erase id) loc.side loc.price) := by
      simp [aggregate,hc]
    have hqty : (aggregate t loc.side loc.price).qty-loc.qty =
        restingQty (t.erase id) loc.side loc.price := by
      simp [aggregate,hq]
    have hzero : UInt32.ofNat (restingCount (t.erase id) loc.side loc.price) = 0 ↔
        restingCount (t.erase id) loc.side loc.price = 0 := by
      rw [← UInt32.toNat_inj,UInt32.toNat_ofNat']
      simp only [UInt32.toNat_zero]
      omega
    rw [hcount',hqty]
    simp only [hzero,levelAt]
    rfl
  · have hother : ¬RestsAt s p loc := fun h' => hloc ⟨h'.1.symm,h'.2.symm⟩
    rw [if_neg hloc]
    simp only [levelAt,aggregate,restingCount_erase h,restingQty_erase h,if_neg hother,zero_add]

theorem levelAt_setQty {t : OrderTable} {id : OrderId} {loc : OrderLoc}
    (h : t.lookup id = some loc) (qty : Qty) (s : Side) (p : Price) :
    levelAt (t.insert id { loc with qty := qty }) s p =
      if s = loc.side ∧ p = loc.price then
        (levelAt t loc.side loc.price).map fun lv => { lv with qty := lv.qty-loc.qty+qty }
      else levelAt t s p := by
  simp only [levelAt,aggregate,restingCount_setQty h,restingQty_setQty h]
  by_cases hloc : s = loc.side ∧ p = loc.price
  · obtain ⟨rfl,rfl⟩ := hloc
    have hself : RestsAt loc.side loc.price loc := ⟨rfl,rfl⟩
    rw [if_pos (And.intro rfl rfl),if_pos hself]
    split_ifs <;> rfl
  · have hother : ¬RestsAt s p loc := fun h' => hloc ⟨h'.1.symm,h'.2.symm⟩
    rw [if_neg hloc,if_neg hother]

/-! ### The recomputed side -/

theorem mem_rankedPrices {t : OrderTable} {side : Side} {price : Price} :
    price ∈ rankedPrices t side ↔ restingCount t side price ≠ 0 := by
  cases side <;> rw [rankedPrices,Finset.mem_sort,mem_restingPrices]

theorem recompute_sorted (t : OrderTable) (side : Side) :
    KeySorted.Sorted PriceLevel.price (Better side) (recompute t side) := by
  rw [KeySorted.Sorted,recompute,List.pairwise_map]
  cases side with
  | bid => exact (Finset.sortedGT_sort _).pairwise
  | ask => exact (Finset.sortedLT_sort _).pairwise

theorem mem_recompute {t : OrderTable} {side : Side} {lv : PriceLevel} :
    lv ∈ recompute t side ↔
      restingCount t side lv.price ≠ 0 ∧ lv = aggregate t side lv.price := by
  simp only [recompute,List.mem_map,mem_rankedPrices]
  constructor
  · rintro ⟨p,hp,rfl⟩
    exact ⟨hp,rfl⟩
  · rintro ⟨hp,hlv⟩
    exact ⟨lv.price,hp,hlv.symm⟩

theorem recompute_length (t : OrderTable) (side : Side) :
    (recompute t side).length = (restingPrices t side).card := by
  cases side <;> simp [recompute,rankedPrices]

/-- The recomputed side is the only best-first list of the tables' levels. -/
theorem eq_recompute {t : OrderTable} {side : Side} {l : List PriceLevel}
    (hl : KeySorted.Sorted PriceLevel.price (Better side) l)
    (h : ∀ p, KeySorted.lookup PriceLevel.price p l = levelAt t side p) :
    l = recompute t side := by
  refine KeySorted.ext hl (recompute_sorted t side) fun p => ?_
  rw [h]
  apply Option.ext
  intro lv
  rw [levelAt_eq_some,KeySorted.lookup_eq_some (recompute_sorted t side),mem_recompute]
  constructor
  · rintro ⟨hp,rfl⟩
    exact ⟨⟨hp,rfl⟩,rfl⟩
  · rintro ⟨⟨hp,hlv⟩,rfl⟩
    exact ⟨hp,hlv.symm⟩

end OrderTable
end Marketlib
