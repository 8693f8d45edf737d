import Marketlib.OrderTable

/-! The array book refines the order table. As long as a side never needs more prices
than it has cells, every run of the book lists exactly the levels recomputed from the
resting orders. -/

namespace Marketlib
namespace OrderBook

open OrderTable

variable {maxLevels maxOrders : ℕ}

/-- `good` holds of every operation of the list, in the table where it takes place. -/
def Throughout (maxOrders : ℕ) (good : OrderTable → Op → Prop) : OrderTable → List Op → Prop
  | _, [] => True
  | t, op :: ops => good t op ∧ Throughout maxOrders good (place maxOrders t op) ops

/-- An accepted order has a fresh id and its side has a cell for every resting price;
a fill unlists the filled order's own level. -/
def Admitted (maxLevels maxOrders : ℕ) (t : OrderTable) : Op → Prop
  | .add id side price _ => t.keys.card < maxOrders →
    id ∉ t ∧ (insert price (restingPrices t side)).card ≤ maxLevels
  | .cancel _ => True
  | .modify _ _ => True
  | .execute _ _ moved => moved = none

/-- The order that is removed, if any, is not the last one its level's 32-bit counter
counts while others still rest there. -/
def Counted (t : OrderTable) : Op → Prop
  | .add _ _ _ _ => True
  | .cancel id => ∀ loc ∈ t.lookup id,
    restingCount t loc.side loc.price % 2^32 = 1 → restingCount t loc.side loc.price = 1
  | .modify _ _ => True
  | .execute id execQty _ => ∀ loc ∈ t.lookup id, loc.qty = execQty →
    restingCount t loc.side loc.price % 2^32 = 1 → restingCount t loc.side loc.price = 1

instance (t : OrderTable) : DecidablePred (Admitted maxLevels maxOrders t)
  | .add id side price _ => inferInstanceAs (Decidable (t.keys.card < maxOrders →
      id ∉ t ∧ (insert price (restingPrices t side)).card ≤ maxLevels))
  | .cancel _ => inferInstanceAs (Decidable True)
  | .modify _ _ => inferInstanceAs (Decidable True)
  | .execute _ _ moved => inferInstanceAs (Decidable (moved = none))

instance (t : OrderTable) : DecidablePred (Counted t)
  | .add _ _ _ _ => inferInstanceAs (Decidable True)
  | .cancel id => inferInstanceAs (Decidable (∀ loc ∈ t.lookup id,
      restingCount t loc.side loc.price % 2^32 = 1 → restingCount t loc.side loc.price = 1))
  | .modify _ _ => inferInstanceAs (Decidable True)
  | .execute id execQty _ => inferInstanceAs (Decidable (∀ loc ∈ t.lookup id, loc.qty = execQty →
      restingCount t loc.side loc.price % 2^32 = 1 → restingCount t loc.side loc.price = 1))

instance decidableThroughout (good : OrderTable → Op → Prop) [∀ t, DecidablePred (good t)] :
    ∀ t ops, Decidable (Throughout maxOrders good t ops)
  | _, [] => inferInstanceAs (Decidable True)
  | t, op :: ops =>
    have := decidableThroughout good (place maxOrders t op) ops
    inferInstanceAs (Decidable (good t op ∧ Throughout maxOrders good (place maxOrders t op) ops))

theorem throughout_append {good : OrderTable → Op → Prop} {t : OrderTable} {ops ops' : List Op} :
    Throughout maxOrders good t (ops ++ ops') ↔
      Throughout maxOrders good t ops ∧
        Throughout maxOrders good (placeAll maxOrders t ops) ops' := by
  induction ops generalizing t with
  | nil => simp [Throughout]
  | cons op ops ih => simp [Throughout,ih,and_assoc]

/-- The table never holds more than `MaxOrders` orders. -/
theorem place_card_le {t : OrderTable} (h : t.keys.card ≤ maxOrders) (op : Op) :
    (place maxOrders t op).keys.card ≤ maxOrders := by
  cases op with
  | add id side price qty =>
    rw [place]
    split_ifs with hfull
    · exact h
    · rw [MapTotals.keys_insert]
      exact (Finset.card_insert_le _ _).trans (not_le.mp hfull)
  | cancel id =>
    rw [place,Finmap.keys_erase]
    exact (Finset.card_erase_le).trans h
  | modify id newQty =>
    cases hloc : t.lookup id with
    | none => simpa only [place,hloc] using h
    | some loc => simpa only [place,hloc,MapTotals.card_replace hloc] using h
  | execute id execQty moved =>
    cases hloc : t.lookup id with
    | none => simpa only [place,hloc] using h
    | some loc =>
      simp only [place,hloc]
      split_ifs
      · rw [Finmap.keys_erase]
        exact (Finset.card_erase_le).trans h
      · rwa [MapTotals.card_replace hloc]

/-- With room for at most `2^32` orders the level counters never wrap. -/
theorem throughout_counted {t : OrderTable} (h : t.keys.card ≤ maxOrders)
    (hmax : maxOrders ≤ 2^32) (ops : List Op) : Throughout maxOrders Counted t ops := by
  induction ops generalizing t with
  | nil => trivial
  | cons op ops ih =>
    have hone : ∀ side price, restingCount t side price % 2^32 = 1 →
        restingCount t side price = 1 := by
      intro side price hmod
      have := restingCount_le_card t side price
      omega
    refine ⟨?_,ih (place_card_le h op)⟩
    cases op with
    | add id side price qty => trivial
    | cancel id => exact fun loc _ => hone _ _
    | modify id newQty => trivial
    | execute id execQty moved => exact fun loc _ _ => hone _ _

/-- The book shows what its order table adds up to. -/
structure Matches (b : OrderBook maxLevels maxOrders) (t : OrderTable) : Prop where
  bestFirst : b.BestFirst
  orders : b.orders = t
  levels : ∀ s p, b.levelAt s p = t.levelAt s p

theorem Matches.span {b : OrderBook maxLevels maxOrders} {t : OrderTable} (h : Matches b t)
    (side : Side) : (b.levels side).span = recompute t side :=
  eq_recompute (h.bestFirst side) fun p => h.levels side p

theorem Matches.count {b : OrderBook maxLevels maxOrders} {t : OrderTable} (h : Matches b t)
    (side : Side) : (b.levels side).count = (restingPrices t side).card := by
  rw [← Levels.span_length,h.span,recompute_length]

theorem Matches.listed {b : OrderBook maxLevels maxOrders} {t : OrderTable} (h : Matches b t)
    {id : OrderId} {loc : OrderLoc} (hloc : t.lookup id = some loc) :
    b.levelAt loc.side loc.price = some (aggregate t loc.side loc.price) := by
  rw [h.levels,levelAt_eq_some]
  have hpos : 0 < restingCount t loc.side loc.price :=
    (MapTotals.tally_pos _).mpr ⟨id,loc,hloc,rfl,rfl⟩
  exact ⟨hpos.ne',rfl⟩

theorem create_matches (symbolId : UInt32) :
    Matches (create symbolId : OrderBook maxLevels maxOrders) ∅ := by
  refine ⟨create_bestFirst symbolId,rfl,fun s p => ?_⟩
  cases s <;> rfl

/-! ### One operation -/

theorem onAdd_matches {b : OrderBook maxLevels maxOrders} {t : OrderTable} (h : Matches b t)
    {id : OrderId} {side : Side} {price : Price} {qty : Qty}
    (hadm : Admitted maxLevels maxOrders t (.add id side price qty)) :
    ∃ b', step b (.add id side price qty) = some b' ∧
      Matches b' (place maxOrders t (.add id side price qty)) := by
  by_cases hcard : t.keys.card < maxOrders
  · obtain ⟨hfresh,hfit⟩ := hadm hcard
    have hroom : b.levelAt side price ≠ none ∨ (b.levels side).count < maxLevels := by
      by_cases hlisted : b.levelAt side price = none
      · right
        rw [h.levels,levelAt_eq_none] at hlisted
        rw [Finset.card_insert_of_notMem (by rw [mem_restingPrices]; simpa using hlisted)] at hfit
        rw [h.count]
        omega
      · exact .inl hlisted
    obtain ⟨b',_,hres,_,_,_,hbest,horders,_,hlevel⟩ :=
      onAdd_credits h.bestFirst (by rwa [h.orders]) hroom id qty
    refine ⟨b',by simp [step,hres],hbest,?_,fun s p => ?_⟩
    · rw [horders,h.orders,place,if_neg (not_le.mpr hcard)]
    · rw [hlevel,place,if_neg (not_le.mpr hcard),levelAt_insert hfresh,h.levels,h.levels]
  · have hfull : maxOrders ≤ b.orders.keys.card := by rw [h.orders]; exact not_lt.mp hcard
    refine ⟨b,by simp [step,onAdd_refused hfull],?_⟩
    rwa [place,if_pos (not_lt.mp hcard)]

theorem onCancel_matches {b : OrderBook maxLevels maxOrders} {t : OrderTable} (h : Matches b t)
    (id : OrderId) (hcounted : Counted t (.cancel id)) :
    Matches (b.onCancel id) (t.erase id) := by
  cases hloc : t.lookup id with
  | none =>
    rw [onCancel_absent (by rwa [h.orders]),MapTotals.erase_absent hloc]
    exact h
  | some loc =>
    obtain ⟨hbest,horders,_,hlevel⟩ := onCancel_spec h.bestFirst (h.orders ▸ hloc)
    refine ⟨hbest,by rw [horders,h.orders],fun s p => ?_⟩
    rw [hlevel,levelAt_erase hloc (hcounted loc hloc),h.levels,h.levels]

theorem onModify_matches {b : OrderBook maxLevels maxOrders} {t : OrderTable} (h : Matches b t)
    (id : OrderId) (newQty : Qty) :
    Matches (b.onModify id newQty) (place maxOrders t (.modify id newQty)) := by
  cases hloc : t.lookup id with
  | none =>
    rw [onModify_ignored (by simp [h.orders,hloc])]
    simpa [place,hloc] using h
  | some loc =>
    obtain ⟨hbest,horders,_,hlevel⟩ :=
      onModify_spec h.bestFirst (h.orders ▸ hloc) (h.listed hloc) newQty
    refine ⟨hbest,by simp [place,hloc,horders,h.orders],fun s p => ?_⟩
    simp only [place,hloc]
    rw [hlevel,levelAt_setQty hloc,← h.levels,h.listed hloc,h.levels]
    rfl

theorem onExecute_matches {b : OrderBook maxLevels maxOrders} {t : OrderTable} (h : Matches b t)
    {id : OrderId} {execQty : Qty} (hcounted : Counted t (.execute id execQty none)) :
    Matches (b.onExecute id execQty none) (place maxOrders t (.execute id execQty none)) := by
  cases hloc : t.lookup id with
  | none =>
    rw [onExecute_ignored (by simp [h.orders,hloc])]
    simpa [place,hloc] using h
  | some loc =>
    have hloc' : b.orders.lookup id = some loc := h.orders ▸ hloc
    by_cases hq : loc.qty-execQty = 0
    · obtain rfl : execQty = loc.qty := (sub_eq_zero.mp hq).symm
      obtain ⟨i,hf,_⟩ := Levels.findLevel_of_at? (h.listed hloc)
      rw [onExecute_fill_eq_onCancel hloc' hf (.inr (by simp))]
      have hcancel := onCancel_matches h id fun loc' hl =>
        hcounted loc' hl (by rw [Option.mem_def,hloc] at hl; cases hl; rfl)
      simpa [place,hloc] using hcancel
    · obtain ⟨hbest,horders,_,hlevel⟩ :=
        onExecute_partly h.bestFirst hloc' (h.listed hloc) hq none
      refine ⟨hbest,by simp [place,hloc,hq,horders,h.orders],fun s p => ?_⟩
      simp only [place,hloc,if_neg hq]
      rw [hlevel,levelAt_setQty hloc,← h.levels,h.listed hloc,h.levels]
      split_ifs
      · simp only [Option.map_some]
        congr 2
        exact (sub_add_sub_cancel _ _ _).symm
      · rfl

theorem step_matches {b : OrderBook maxLevels maxOrders} {t : OrderTable} (h : Matches b t)
    {op : Op} (hadm : Admitted maxLevels maxOrders t op) (hcounted : Counted t op) :
    ∃ b', step b op = some b' ∧ Matches b' (place maxOrders t op) := by
  cases op with
  | add id side price qty => exact onAdd_matches h hadm
  | cancel id => exact ⟨_,rfl,onCancel_matches h id hcounted⟩
  | modify id newQty => exact ⟨_,rfl,onModify_matches h id newQty⟩
  | execute id execQty moved =>
    cases (show moved = none from hadm)
    exact ⟨_,rfl,onExecute_matches h hcounted⟩

/-! ### Every run -/

/-- The book refines its order table over whole runs, and no step of such a run is
undefined. -/
theorem run_matches {b : OrderBook maxLevels maxOrders} {t : OrderTable} (h : Matches b t)
    {ops : List Op} (hadm : Throughout maxOrders (Admitted maxLevels maxOrders) t ops)
    (hcounted : Throughout maxOrders Counted t ops) :
    ∃ b', Transition.run step b ops = some b' ∧ Matches b' (placeAll maxOrders t ops) := by
  induction ops generalizing b t with
  | nil => exact ⟨b,rfl,h⟩
  | cons op ops ih =>
    obtain ⟨c,hc,hmatch⟩ := step_matches h hadm.1 hcounted.1
    obtain ⟨b',hb',hmatch'⟩ := ih hmatch hadm.2 hcounted.2
    exact ⟨b',by rw [Transition.run_cons,hc,Option.bind_some,hb'],hmatch'⟩

/-! ### Runs of adds -/

/-- Orders `0`, …, `n-1` of quantity one on one side, at given prices. -/
def addEach (side : Side) (price : ℕ → Price) (n : ℕ) : List Op :=
  (List.range n).map fun i => .add (UInt64.ofNat i) side (price i) 1

theorem addEach_succ (side : Side) (price : ℕ → Price) (n : ℕ) : addEach side price (n+1) =
    addEach side price n ++ [.add (UInt64.ofNat n) side (price n) 1] := by
  simp [addEach,List.range_succ]

theorem placeAll_append (t : OrderTable) (ops ops' : List Op) :
    placeAll maxOrders t (ops ++ ops') = placeAll maxOrders (placeAll maxOrders t ops) ops' :=
  List.foldl_append

theorem placeAll_addEach (side : Side) (price : ℕ → Price) {n : ℕ} (hn : n ≤ maxOrders)
    (hid : n ≤ 2^64) : (placeAll maxOrders ∅ (addEach side price n)).keys.card = n ∧
      (∀ id : OrderId, (placeAll maxOrders ∅ (addEach side price n)).lookup id =
        if id.toNat < n then some ⟨side,price id.toNat,1⟩ else none) ∧
      ∀ p, restingCount (placeAll maxOrders ∅ (addEach side price n)) side p =
        (List.range n).countP fun i => price i = p := by
  induction n with
  | zero => exact ⟨rfl,by simp [addEach],fun _ => rfl⟩
  | succ n ih =>
    obtain ⟨hcard,hlookup,hcount⟩ := ih (by omega) (by omega)
    rw [addEach_succ,placeAll_append,placeAll_cons,placeAll_nil]
    generalize placeAll maxOrders ∅ (addEach side price n) = t at hcard hlookup hcount
    have hval : (UInt64.ofNat n).toNat = n := UInt64.toNat_ofNat_of_lt' (Nat.lt_of_succ_le hid)
    have hfresh : UInt64.ofNat n ∉ t := by
      rw [← Finmap.lookup_eq_none,hlookup,hval,if_neg (lt_irrefl n)]
    rw [place,if_neg (by omega)]
    refine ⟨?_,fun id => ?_,fun p => ?_⟩
    · rw [MapTotals.card_insert hfresh,hcard]
    · by_cases hself : id = UInt64.ofNat n
      · subst hself
        rw [Finmap.lookup_insert,hval,if_pos n.lt_succ_self]
      · have hne : id.toNat ≠ n := fun h => hself (UInt64.toNat_inj.mp (h.trans hval.symm))
        rw [Finmap.lookup_insert_of_ne _ hself,hlookup]
        exact if_congr (by omega) rfl rfl
    · rw [restingCount_insert hfresh,hcount,List.range_succ,List.countP_append]
      simp [RestsAt]
      omega

theorem addEach_admitted (side : Side) (price : ℕ → Price) {n : ℕ} (hn : n ≤ maxOrders)
    (hid : n ≤ 2^64) (hprices : ((Finset.range n).image price).card ≤ maxLevels) :
    Throughout maxOrders (Admitted maxLevels maxOrders) ∅ (addEach side price n) := by
  induction n with
  | zero => exact trivial
  | succ n ih =>
    rw [addEach_succ,throughout_append]
    have hsub : (Finset.range n).image price ⊆ (Finset.range (n+1)).image price :=
      Finset.image_subset_image (Finset.range_subset_range.mpr (Nat.le_succ n))
    obtain ⟨_,hlookup,hcount⟩ := placeAll_addEach side price (Nat.le_of_succ_le hn)
      (Nat.le_of_succ_le hid)
    refine ⟨ih (by omega) (by omega) ((Finset.card_le_card hsub).trans hprices),fun _ => ⟨?_,?_⟩,
      trivial⟩
    · rw [← Finmap.lookup_eq_none,hlookup,UInt64.toNat_ofNat_of_lt' (Nat.lt_of_succ_le hid),
        if_neg (lt_irrefl n)]
    · refine le_trans (Finset.card_le_card fun p hp => ?_) hprices
      rw [Finset.mem_insert,mem_restingPrices,hcount] at hp
      rw [Finset.mem_image]
      rcases hp with rfl | hp
      · exact ⟨n,by simp,rfl⟩
      · obtain ⟨i,hi,hpi⟩ := List.countP_pos_iff.mp (Nat.pos_of_ne_zero hp)
        exact ⟨i,by simp at hi ⊢; omega,by simpa using hpi⟩

theorem addEach_counted (side : Side) (price : ℕ → Price) (n : ℕ) :
    Throughout maxOrders Counted ∅ (addEach side price n) := by
  induction n with
  | zero => exact trivial
  | succ n ih =>
    rw [addEach_succ,throughout_append]
    exact ⟨ih,trivial,trivial⟩

theorem addEach_matches (side : Side) (price : ℕ → Price) {n : ℕ} (hn : n ≤ maxOrders)
    (hid : n ≤ 2^64) (hprices : ((Finset.range n).image price).card ≤ maxLevels)
    (symbolId : UInt32) : ∃ b : OrderBook maxLevels maxOrders,
      Transition.run step (create symbolId) (addEach side price n) = some b ∧
      Matches b (placeAll maxOrders ∅ (addEach side price n)) :=
  run_matches (create_matches symbolId) (addEach_admitted side price hn hid hprices)
    (addEach_counted side price n)

/-! ### The book recomputed -/

/-- The incremental book is the book recomputed from its order table. -/
theorem run_eq_recompute (symbolId : UInt32) (ops : List Op)
    (hadm : Throughout maxOrders (Admitted maxLevels maxOrders) ∅ ops)
    (hcounted : Throughout maxOrders Counted ∅ ops) :
    ∃ b : OrderBook maxLevels maxOrders, Transition.run step (create symbolId) ops = some b ∧
      b.orders = placeAll maxOrders ∅ ops ∧
      ∀ side, (b.levels side).span = recompute b.orders side ∧
        (∀ price, (∃ lv ∈ (b.levels side).span, lv.price = price) ↔
          ∃ id loc, b.orders.lookup id = some loc ∧ loc.side = side ∧ loc.price = price) ∧
        ∀ lv ∈ (b.levels side).span, lv.qty = restingQty b.orders side lv.price ∧
          lv.orderCount = UInt32.ofNat (restingCount b.orders side lv.price) := by
  obtain ⟨b,hrun,hmatch⟩ := run_matches (create_matches symbolId) hadm hcounted
  have hspan := hmatch.span
  rw [← hmatch.orders] at hspan
  refine ⟨b,hrun,hmatch.orders,fun side => ⟨hspan side,fun price => ?_,fun lv hlv => ?_⟩⟩
  · have hpos : restingCount b.orders side price ≠ 0 ↔
        ∃ id loc, b.orders.lookup id = some loc ∧ loc.side = side ∧ loc.price = price := by
      rw [← Nat.pos_iff_ne_zero]
      exact MapTotals.tally_pos _
    rw [hspan,← hpos]
    simp only [mem_recompute]
    constructor
    · rintro ⟨lv,⟨hlv,_⟩,rfl⟩
      exact hlv
    · intro hprice
      exact ⟨aggregate b.orders side price,⟨hprice,rfl⟩,rfl⟩
  · rw [hspan,mem_recompute] at hlv
    rw [hlv.2]
    exact ⟨rfl,rfl⟩

theorem run_eq_recompute_uncrossed :
    ∃ b : OrderBook 2 4, Transition.run step (create 7)
        [.add 1 .bid 100 10,.add 2 .bid 101 5,.add 3 .ask 102 4,.modify 1 3,.execute 2 5 none,
          .cancel 3] = some b ∧
      b.orders = placeAll 4 ∅
        [.add 1 .bid 100 10,.add 2 .bid 101 5,.add 3 .ask 102 4,.modify 1 3,.execute 2 5 none,
          .cancel 3] ∧
      ∀ side, (b.levels side).span = recompute b.orders side ∧
        (∀ price, (∃ lv ∈ (b.levels side).span, lv.price = price) ↔
          ∃ id loc, b.orders.lookup id = some loc ∧ loc.side = side ∧ loc.price = price) ∧
        ∀ lv ∈ (b.levels side).span, lv.qty = restingQty b.orders side lv.price ∧
          lv.orderCount = UInt32.ofNat (restingCount b.orders side lv.price) :=
  run_eq_recompute 7 _ (by decide) (by decide)

/-- Among `n+1` orders at the only price, one is cancelled while the counter reads one. -/
theorem cancel_wrapped {n : ℕ} (hn : n+1 ≤ maxOrders) (hid : n+1 ≤ 2^64)
    (hwrap : UInt32.ofNat n = 0) : ∃ b : OrderBook 1 maxOrders,
      Transition.run step (create 0) (addEach .bid (fun _ => 0) (n+1) ++ [.cancel 0]) = some b ∧
      Throughout maxOrders (Admitted 1 maxOrders) ∅
        (addEach .bid (fun _ => 0) (n+1) ++ [.cancel 0]) ∧
      b.bids.span = [] ∧ restingCount b.orders .bid 0 = n := by
  have hprices : ((Finset.range (n+1)).image fun _ : ℕ => (0 : Price)).card ≤ 1 :=
    Finset.card_le_one.mpr (by simp)
  have hadm := addEach_admitted .bid (fun _ => 0) hn hid hprices
  obtain ⟨b,hrun,hmatch⟩ := addEach_matches .bid (fun _ => 0) hn hid hprices 0
  obtain ⟨_,hlookup,hcount⟩ := placeAll_addEach .bid (fun _ => 0) hn hid
  have hloc := (hlookup 0).trans (if_pos (by simp))
  have hall : ∀ m, (List.range m).countP (fun _ => decide ((0 : Price) = 0)) = m := by simp
  have hnone : ∀ p : Price, p ≠ 0 → (List.range (n+1)).countP (fun _ => decide (0 = p)) = 0 :=
    fun p hp => List.countP_eq_zero.mpr fun _ _ => by simpa using hp.symm
  obtain ⟨hbest,horders,_,hlevel⟩ := onCancel_spec hmatch.bestFirst (hmatch.orders ▸ hloc)
  refine ⟨b.onCancel 0,Transition.run_trans hrun rfl,?_,?_,?_⟩
  · rw [throughout_append]
    exact ⟨hadm,trivial,trivial⟩
  · have hnone : ∀ p, (b.onCancel 0).levelAt .bid p = none := by
      intro p
      rw [hlevel,hmatch.listed hloc]
      by_cases hp : p = 0
      · rw [if_pos ⟨rfl,hp⟩,Option.bind_some,withoutOrder,if_pos]
        simp only [aggregate,hcount]
        simpa using hwrap
      · rw [if_neg fun h => hp h.2,hmatch.levels,levelAt_eq_none,hcount,hnone p hp]
    rw [List.eq_nil_iff_forall_not_mem]
    intro lv hlv
    exact KeySorted.lookup_eq_none.mp (hnone lv.price) lv hlv rfl
  · have herase := restingCount_erase hloc .bid 0
    rw [hcount 0,hall,if_pos ⟨rfl,rfl⟩] at herase
    rw [horders,hmatch.orders]
    omega

/-- With `2^32+1` orders at one price the level's counter is one, so cancelling any of
them unlists a price where `2^32` orders still rest. -/
theorem wrapped_count_unlists :
    ∃ b : OrderBook 1 (2^33),
      Transition.run step (create 0) (addEach .bid (fun _ => 0) (2^32+1) ++ [.cancel 0]) =
        some b ∧
      Throughout (2^33) (Admitted 1 (2^33)) ∅
        (addEach .bid (fun _ => 0) (2^32+1) ++ [.cancel 0]) ∧
      b.bids.span = [] ∧ restingCount b.orders .bid 0 = 2^32 :=
  cancel_wrapped (n := 2^32) (by omega) (by omega) (by decide)

end OrderBook
end Marketlib
