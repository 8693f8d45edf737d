import Marketlib.BookReadd

/-! The quantities of the book as natural numbers. A level's quantity is the exact sum of its
orders' remaining quantities as long as every operation fits: no fill above what remains, no sum
past the 64 bits. -/

namespace Marketlib
namespace OrderBook

open OrderTable

variable {maxLevels maxOrders : ℕ}

/-- The sum of the remaining quantities, as a natural number. -/
def restingSum (t : OrderTable) (s : Side) (p : Price) : ℕ :=
  MapTotals.total (fun loc => if RestsAt s p loc then loc.qty.toNat else 0) t

/-- What is left of an order. -/
def remaining (b : OrderBook maxLevels maxOrders) (id : OrderId) : Qty :=
  (b.orders.lookup id).elim 0 OrderLoc.qty

/-- Every level's quantity is the exact sum of its orders' remaining quantities. -/
def Exact (b : OrderBook maxLevels maxOrders) : Prop :=
  ∀ s p lv, b.levelAt s p = some lv → lv.qty.toNat = restingSum b.orders s p

/-- What may not grow has not grown from `b` to `b'`, and what may not shrink has not shrunk. -/
def NoWrap (b b' : OrderBook maxLevels maxOrders) : Op → Prop
  | .add _ side price _ => b.qtyAt side price ≤ b'.qtyAt side price
  | .execute id _ _ => b'.remaining id ≤ b.remaining id ∧
    ∀ loc, b.orders.lookup id = some loc →
      b'.qtyAt loc.side loc.price ≤ b.qtyAt loc.side loc.price
  | .cancel _ | .modify _ _ => True

/-- No step of the run wraps a quantity. -/
def NeverWraps (b : OrderBook maxLevels maxOrders) : List Op → Prop
  | [] => True
  | op :: ops => ∀ b', step b op = some b' → NoWrap b b' op ∧ Exact b' ∧ NeverWraps b' ops

/-- The operation fits into 64 bits, and a fill into what remains of its order. -/
def Fits (maxOrders : ℕ) (t : OrderTable) : Op → Prop
  | .add _ side price qty => t.keys.card < maxOrders →
    restingSum t side price+qty.toNat < 2^64
  | .cancel _ => True
  | .modify id newQty => ∀ loc ∈ t.lookup id,
    restingSum t loc.side loc.price-loc.qty.toNat+newQty.toNat < 2^64
  | .execute id execQty _ => ∀ loc ∈ t.lookup id, execQty ≤ loc.qty

/-- Ids are fresh, and a side has a cell for every resting price. -/
def Capacity (maxLevels maxOrders : ℕ) (t : OrderTable) : Op → Prop
  | .add id side price _ => t.keys.card < maxOrders →
    id ∉ t ∧ (insert price (restingPrices t side)).card ≤ maxLevels
  | _ => True

/-- A fill that empties its level reads a record of the level's own side and price. -/
def ReadsOwn (t : OrderTable) : Op → Prop
  | .execute id execQty moved => ∀ loc ∈ t.lookup id, loc.qty = execQty →
    restingCount t loc.side loc.price % 2^32 = 1 →
    ∀ rec ∈ moved, rec.side = loc.side ∧ rec.price = loc.price
  | _ => True

instance (t : OrderTable) : DecidablePred (Capacity maxLevels maxOrders t)
  | .add id side price _ => inferInstanceAs (Decidable (t.keys.card < maxOrders →
      id ∉ t ∧ (insert price (restingPrices t side)).card ≤ maxLevels))
  | .cancel _ | .modify _ _ | .execute _ _ _ => inferInstanceAs (Decidable True)

instance (t : OrderTable) : DecidablePred (ReadsOwn t)
  | .execute id execQty moved => inferInstanceAs (Decidable (∀ loc ∈ t.lookup id,
      loc.qty = execQty → restingCount t loc.side loc.price % 2^32 = 1 →
      ∀ rec ∈ moved, rec.side = loc.side ∧ rec.price = loc.price))
  | .add _ _ _ _ | .cancel _ | .modify _ _ => inferInstanceAs (Decidable True)

/-! ### Sums -/

/-- Counting modulo `2^64`. -/
def ofNatHom : ℕ →+ Qty where
  toFun := UInt64.ofNat
  map_zero' := rfl
  map_add' _ _ := UInt64.ofNat_add ..

theorem restingQty_eq_sum (t : OrderTable) (s : Side) (p : Price) :
    restingQty t s p = UInt64.ofNat (restingSum t s p) := by
  refine Eq.trans ?_ (MapTotals.total_hom ofNatHom _)
  rw [restingQty]
  congr 1
  funext loc
  split_ifs
  · exact (UInt64.ofNat_toNat ..).symm
  · rfl

theorem restingSum_insert {t : OrderTable} {id : OrderId} (h : id ∉ t) (loc : OrderLoc)
    (s : Side) (p : Price) : restingSum (t.insert id loc) s p =
      (if RestsAt s p loc then loc.qty.toNat else 0)+restingSum t s p :=
  MapTotals.total_insert (fun loc => if RestsAt s p loc then loc.qty.toNat else 0) h

theorem restingSum_erase {t : OrderTable} {id : OrderId} {loc : OrderLoc}
    (h : t.lookup id = some loc) (s : Side) (p : Price) : restingSum t s p =
      (if RestsAt s p loc then loc.qty.toNat else 0)+restingSum (t.erase id) s p :=
  MapTotals.total_erase (fun loc => if RestsAt s p loc then loc.qty.toNat else 0) h

theorem restingSum_replace (t : OrderTable) (id : OrderId) (loc : OrderLoc) (s : Side)
    (p : Price) : restingSum (t.insert id loc) s p =
      (if RestsAt s p loc then loc.qty.toNat else 0)+restingSum (t.erase id) s p :=
  MapTotals.total_replace (fun loc => if RestsAt s p loc then loc.qty.toNat else 0) loc

theorem restingSum_eq_zero {t : OrderTable} {s : Side} {p : Price}
    (h : restingCount t s p = 0) : restingSum t s p = 0 :=
  MapTotals.total_eq_zero (RestsAt s p) (fun _ hloc => if_neg hloc) h

/-- Every sum fits into 64 bits. -/
def Small (t : OrderTable) : Prop := ∀ s p, restingSum t s p < 2^64

theorem Small.toNat {t : OrderTable} (h : Small t) (s : Side) (p : Price) :
    (restingQty t s p).toNat = restingSum t s p := by
  rw [restingQty_eq_sum,UInt64.toNat_ofNat_of_lt' (h s p)]

theorem Small.le {t t' : OrderTable} (h : Small t)
    (hle : ∀ s p, restingSum t' s p ≤ restingSum t s p) : Small t' :=
  fun s p => (hle s p).trans_lt (h s p)

theorem Matches.exact_iff {b : OrderBook maxLevels maxOrders} {t : OrderTable}
    (h : Matches b t) : Exact b ↔ Small t := by
  obtain rfl := h.orders
  constructor
  · intro hexact s p
    by_cases hzero : restingCount b.orders s p = 0
    · rw [restingSum_eq_zero hzero]
      exact Nat.two_pow_pos 64
    · rw [← hexact s p (aggregate b.orders s p) (by rw [h.levels,levelAt_eq_some]; exact ⟨hzero,rfl⟩)]
      exact UInt64.toNat_lt _
  · intro hsmall s p lv hlv
    rw [h.levels,levelAt_eq_some] at hlv
    rw [← hlv.2,← hsmall.toNat]
    rfl

theorem Matches.qtyAt {b : OrderBook maxLevels maxOrders} {t : OrderTable} (h : Matches b t)
    (s : Side) (p : Price) : b.qtyAt s p = restingQty t s p := by
  rw [OrderBook.qtyAt,h.levels,OrderTable.levelAt]
  split_ifs with hzero
  · exact (restingQty_eq_zero hzero).symm
  · rfl

/-! ### One operation -/

/-- With the record read being of the same level, a fill is what it is without the record. -/
theorem onExecute_moved {b : OrderBook maxLevels maxOrders} {t : OrderTable} (h : Matches b t)
    {id : OrderId} {execQty : Qty} {moved : Option OrderLoc}
    (hreads : ReadsOwn t (.execute id execQty moved)) :
    b.onExecute id execQty moved = b.onExecute id execQty none := by
  obtain rfl := h.orders
  cases hloc : b.orders.lookup id with
  | none => rw [onExecute_ignored (by simp [hloc]),onExecute_ignored (by simp [hloc])]
  | some loc =>
    obtain ⟨i,hf,_,hcell⟩ := Levels.findLevel_of_at? (h.listed hloc)
    by_cases hq : loc.qty = execQty
    · subst hq
      have hread : ((b.levels loc.side).cell i).orderCount-1 ≠ 0 ∨
          ∀ rec, moved = some rec → rec.side = loc.side ∧ rec.price = loc.price := by
        by_cases hone : restingCount b.orders loc.side loc.price % 2^32 = 1
        · exact .inr fun rec hrec => hreads loc hloc rfl hone rec hrec
        · left
          rw [hcell,aggregate,sub_ne_zero,Ne,← UInt32.toNat_inj,UInt32.toNat_ofNat']
          exact hone
      have hnone : ∀ rec, (none : Option OrderLoc) = some rec →
          rec.side = loc.side ∧ rec.price = loc.price := fun _ h => by cases h
      rw [onExecute_fill_eq_onCancel hloc hf hread,onExecute_fill_eq_onCancel hloc hf (.inr hnone)]
    · have hne : loc.qty-execQty ≠ 0 := sub_ne_zero.mpr hq
      simp only [onExecute,hloc,hf,if_neg hne]

theorem step_reads {b : OrderBook maxLevels maxOrders} {t : OrderTable} (h : Matches b t)
    {op : Op} (hcap : Capacity maxLevels maxOrders t op) (hreads : ReadsOwn t op)
    (hcounted : Counted t op) :
    ∃ b', step b op = some b' ∧ Matches b' (place maxOrders t op) := by
  cases op with
  | add | cancel | modify => exact step_matches h hcap hcounted
  | execute id execQty moved =>
    rw [step,onExecute_moved h hreads]
    exact ⟨_,rfl,onExecute_matches h hcounted⟩

theorem Matches.remaining {b : OrderBook maxLevels maxOrders} {t : OrderTable} (h : Matches b t)
    (id : OrderId) : b.remaining id = (t.lookup id).elim 0 OrderLoc.qty := by
  rw [OrderBook.remaining,h.orders]

theorem add_fits {t : OrderTable} (hsmall : Small t) {id : OrderId} (hfresh : id ∉ t)
    (side : Side) (price : Price) (qty : Qty) :
    (restingQty t side price ≤ restingQty (t.insert id ⟨side,price,qty⟩) side price ∧
      Small (t.insert id ⟨side,price,qty⟩)) ↔ restingSum t side price+qty.toNat < 2^64 := by
  have hself := restingSum_insert hfresh ⟨side,price,qty⟩ side price
  rw [if_pos ⟨rfl,rfl⟩] at hself
  constructor
  · rintro ⟨-,hsmall'⟩
    have := hsmall' side price
    dsimp only at hself
    omega
  · intro hfits
    have hsmall' : Small (t.insert id ⟨side,price,qty⟩) := by
      intro s p
      by_cases h : RestsAt s p ⟨side,price,qty⟩
      · obtain ⟨rfl,rfl⟩ := h
        dsimp only at hself ⊢
        omega
      · rw [restingSum_insert hfresh,if_neg h,Nat.zero_add]
        exact hsmall s p
    refine ⟨?_,hsmall'⟩
    rw [UInt64.le_iff_toNat_le,hsmall.toNat,hsmall'.toNat,hself]
    exact Nat.le_add_left ..

theorem modify_fits {t : OrderTable} (hsmall : Small t) {id : OrderId} {loc : OrderLoc}
    (hloc : t.lookup id = some loc) (newQty : Qty) :
    Small (t.insert id { loc with qty := newQty }) ↔
      restingSum t loc.side loc.price-loc.qty.toNat+newQty.toNat < 2^64 := by
  have hself := restingSum_replace t id { loc with qty := newQty } loc.side loc.price
  have hold := restingSum_erase hloc loc.side loc.price
  rw [if_pos ⟨rfl,rfl⟩] at hself hold
  constructor
  · intro hsmall'
    have := hsmall' loc.side loc.price
    dsimp only at hself
    omega
  · intro hfits s p
    by_cases h : RestsAt s p loc
    · obtain ⟨rfl,rfl⟩ := h
      dsimp only at hself
      omega
    · have hother := restingSum_erase hloc s p
      rw [if_neg h] at hother
      rw [restingSum_replace,if_neg (show ¬RestsAt s p { loc with qty := newQty } from h),
        ← hother]
      exact hsmall s p

/-- Taking a part of an order off lowers the sums. -/
theorem restingSum_setQty_le {t : OrderTable} {id : OrderId} {loc : OrderLoc}
    (hloc : t.lookup id = some loc) {qty : Qty} (hle : qty ≤ loc.qty) (s : Side) (p : Price) :
    restingSum (t.insert id { loc with qty := qty }) s p ≤ restingSum t s p := by
  have hle' := UInt64.le_iff_toNat_le.mp hle
  rw [restingSum_replace,restingSum_erase hloc]
  by_cases h : RestsAt s p loc
  · rw [if_pos h,if_pos (show RestsAt s p { loc with qty := qty } from h)]
    exact Nat.add_le_add_right hle' _
  · rw [if_neg h,if_neg (show ¬RestsAt s p { loc with qty := qty } from h)]

theorem restingSum_erase_le {t : OrderTable} {id : OrderId} {loc : OrderLoc}
    (hloc : t.lookup id = some loc) (s : Side) (p : Price) :
    restingSum (t.erase id) s p ≤ restingSum t s p := by
  rw [restingSum_erase hloc]
  exact Nat.le_add_left ..

theorem sub_le_iff_le {e q : Qty} : q-e ≤ q ↔ e ≤ q := by
  rw [UInt64.le_iff_toNat_le,UInt64.le_iff_toNat_le,UInt64.toNat_sub]
  have := e.toNat_lt
  have := q.toNat_lt
  omega

theorem execute_fits {t : OrderTable} (hsmall : Small t) {id : OrderId} {loc : OrderLoc}
    (hloc : t.lookup id = some loc) {execQty : Qty} {moved : Option OrderLoc} {t' : OrderTable}
    (ht' : t' = place maxOrders t (.execute id execQty moved)) :
    ((t'.lookup id).elim 0 OrderLoc.qty ≤ loc.qty ∧
      restingQty t' loc.side loc.price ≤ restingQty t loc.side loc.price ∧ Small t') ↔
      execQty ≤ loc.qty := by
  by_cases hq : loc.qty-execQty = 0
  · have hplace : t' = t.erase id := by simp [ht',place,hloc,hq]
    have hsmall' : Small t' := hsmall.le (hplace ▸ restingSum_erase_le hloc)
    refine iff_of_true ⟨?_,?_,hsmall'⟩ (sub_eq_zero.mp hq ▸ UInt64.le_refl _)
    · rw [hplace,Finmap.lookup_erase]
      exact UInt64.zero_le
    · rw [UInt64.le_iff_toNat_le,hsmall'.toNat,hsmall.toNat,hplace]
      exact restingSum_erase_le hloc _ _
  · have hplace : t' = t.insert id { loc with qty := loc.qty-execQty } := by
      simp [ht',place,hloc,hq]
    have hlookup : (t'.lookup id).elim 0 OrderLoc.qty = loc.qty-execQty := by
      rw [hplace,Finmap.lookup_insert]
      rfl
    rw [hlookup,sub_le_iff_le]
    refine ⟨And.left,fun hle => ?_⟩
    have hdown := restingSum_setQty_le hloc (sub_le_iff_le.mpr hle)
    have hsmall' : Small t' := hsmall.le (hplace ▸ hdown)
    refine ⟨hle,?_,hsmall'⟩
    rw [UInt64.le_iff_toNat_le,hsmall'.toNat,hsmall.toNat,hplace]
    exact hdown _ _

/-- What an operation does to the sums is exact if and only if it fits. -/
theorem noWrap_iff_fits {b b' : OrderBook maxLevels maxOrders} {t : OrderTable}
    (h : Matches b t) (hsmall : Small t) {op : Op} (hcap : Capacity maxLevels maxOrders t op)
    (h' : Matches b' (place maxOrders t op)) :
    NoWrap b b' op ∧ Small (place maxOrders t op) ↔ Fits maxOrders t op := by
  cases op with
  | add id side price qty =>
    rw [NoWrap,h.qtyAt,h'.qtyAt]
    by_cases hcard : t.keys.card < maxOrders
    · rw [place,if_neg (not_le.mpr hcard),add_fits hsmall (hcap hcard).1]
      exact ⟨fun hfits _ => hfits,fun hfits => hfits hcard⟩
    · rw [place,if_pos (not_lt.mp hcard)]
      exact iff_of_true ⟨UInt64.le_refl _,hsmall⟩ fun hlt => absurd hlt hcard
  | cancel id =>
    refine iff_of_true ⟨trivial,?_⟩ trivial
    cases hloc : t.lookup id with
    | none => rwa [place,MapTotals.erase_absent hloc]
    | some loc => exact hsmall.le (restingSum_erase_le hloc)
  | modify id newQty =>
    cases hloc : t.lookup id with
    | none =>
      refine iff_of_true ⟨trivial,by simpa [place,hloc] using hsmall⟩ fun loc hmem => ?_
      rw [Option.mem_def,hloc] at hmem
      cases hmem
    | some loc =>
      simp only [place,hloc,modify_fits hsmall hloc newQty,NoWrap,true_and,Fits,Option.mem_def,
        Option.some.injEq,forall_eq']
  | execute id execQty moved =>
    cases hloc : t.lookup id with
    | none =>
      have hsame : place maxOrders t (.execute id execQty moved) = t := by simp [place,hloc]
      rw [hsame] at h' ⊢
      refine iff_of_true ⟨⟨?_,fun loc hmem => ?_⟩,hsmall⟩ fun loc hmem => ?_
      · rw [h.remaining,h'.remaining]
        exact UInt64.le_refl _
      · rw [h.orders,hloc] at hmem
        cases hmem
      · rw [Option.mem_def,hloc] at hmem
        cases hmem
    | some loc =>
      have hfits := execute_fits hsmall hloc
        (Eq.refl (place maxOrders t (.execute id execQty moved)))
      rw [NoWrap,h.remaining,h'.remaining,h.orders,hloc]
      simp only [Option.some.injEq,forall_eq',h.qtyAt,h'.qtyAt,and_assoc,Fits,Option.mem_def,hloc]
      exact hfits

/-! ### Runs -/

theorem neverWraps_iff {b : OrderBook maxLevels maxOrders} {t : OrderTable} (h : Matches b t)
    (hsmall : Small t) {ops : List Op}
    (hcap : Throughout maxOrders (Capacity maxLevels maxOrders) t ops)
    (hreads : Throughout maxOrders ReadsOwn t ops) (hcounted : Throughout maxOrders Counted t ops) :
    NeverWraps b ops ↔ Throughout maxOrders (Fits maxOrders) t ops := by
  induction ops generalizing b t with
  | nil => exact Iff.rfl
  | cons op ops ih =>
    obtain ⟨b',hstep,hmatch⟩ := step_reads h hcap.1 hreads.1 hcounted.1
    have hone : NoWrap b b' op ∧ Exact b' ↔ Fits maxOrders t op := by
      rw [hmatch.exact_iff]
      exact noWrap_iff_fits h hsmall hcap.1 hmatch
    constructor
    · intro hnever
      obtain ⟨hno,hexact,hrest⟩ := hnever b' hstep
      refine ⟨hone.mp ⟨hno,hexact⟩,?_⟩
      exact (ih hmatch (hmatch.exact_iff.mp hexact) hcap.2 hreads.2 hcounted.2).mp hrest
    · rintro ⟨hfits,hrest⟩ c hc
      cases Option.some.inj (hstep.symm.trans hc)
      obtain ⟨hno,hexact⟩ := hone.mpr hfits
      refine ⟨hno,hexact,?_⟩
      exact (ih hmatch (hmatch.exact_iff.mp hexact) hcap.2 hreads.2 hcounted.2).mpr hrest

theorem run_reads {b : OrderBook maxLevels maxOrders} {t : OrderTable} (h : Matches b t)
    {ops : List Op} (hcap : Throughout maxOrders (Capacity maxLevels maxOrders) t ops)
    (hreads : Throughout maxOrders ReadsOwn t ops) (hcounted : Throughout maxOrders Counted t ops) :
    ∃ b', Transition.run step b ops = some b' ∧ Matches b' (placeAll maxOrders t ops) := by
  induction ops generalizing b t with
  | nil => exact ⟨b,rfl,h⟩
  | cons op ops ih =>
    obtain ⟨c,hc,hmatch⟩ := step_reads h hcap.1 hreads.1 hcounted.1
    obtain ⟨b',hb',hmatch'⟩ := ih hmatch hcap.2 hreads.2 hcounted.2
    exact ⟨b',by rw [Transition.run_cons,hc,Option.bind_some,hb'],hmatch'⟩

/-- A run keeps its quantities exact if and only if every step of it fits. -/
theorem run_neverWraps_iff (symbolId : UInt32) (ops : List Op)
    (hcap : Throughout maxOrders (Capacity maxLevels maxOrders) ∅ ops)
    (hreads : Throughout maxOrders ReadsOwn ∅ ops) (hcounted : Throughout maxOrders Counted ∅ ops) :
    (∃ b : OrderBook maxLevels maxOrders, Transition.run step (create symbolId) ops = some b) ∧
      (NeverWraps (create symbolId : OrderBook maxLevels maxOrders) ops ↔
        Throughout maxOrders (Fits maxOrders) ∅ ops) := by
  obtain ⟨b,hb,-⟩ := run_reads (create_matches symbolId) hcap hreads hcounted
  exact ⟨⟨b,hb⟩,
    neverWraps_iff (create_matches symbolId) (fun _ _ => Nat.two_pow_pos 64) hcap hreads hcounted⟩

theorem run_neverWraps_iff_two :
    (∃ b : OrderBook 8 8, Transition.run step (create 0)
      [.add 1 .bid 100 10,.add 2 .bid 100 5,.execute 1 10 (some ⟨.bid,99,5⟩),.modify 2 7] =
        some b) ∧
      (NeverWraps (create 0 : OrderBook 8 8)
          [.add 1 .bid 100 10,.add 2 .bid 100 5,.execute 1 10 (some ⟨.bid,99,5⟩),.modify 2 7] ↔
        Throughout 8 (Fits 8) ∅
          [.add 1 .bid 100 10,.add 2 .bid 100 5,.execute 1 10 (some ⟨.bid,99,5⟩),.modify 2 7]) :=
  run_neverWraps_iff 0 _ (by decide) (by decide) (by decide)

/-- One more is executed than remains: the order and its level become huge. -/
theorem overfill_wraps :
    Throughout 8 (Capacity 8 8) ∅ [.add 1 .bid 100 10,.execute 1 11 none] ∧
      (∃ b : OrderBook 8 8, Transition.run step (create 0)
        [.add 1 .bid 100 10,.execute 1 11 none] = some b ∧
        b.remaining 1 = 0xFFFFFFFFFFFFFFFF ∧
        b.levelAt .bid 100 = some ⟨100,0xFFFFFFFFFFFFFFFF,1⟩) ∧
      ¬NeverWraps (create 0 : OrderBook 8 8) [.add 1 .bid 100 10,.execute 1 11 none] := by
  refine ⟨by decide,⟨_,rfl,by decide,by decide⟩,fun h => ?_⟩
  obtain ⟨-,-,hrest⟩ := h _ rfl
  obtain ⟨⟨hremaining,-⟩,-⟩ := hrest _ rfl
  exact absurd hremaining (by decide)

end OrderBook
end Marketlib
