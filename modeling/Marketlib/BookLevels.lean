import Marketlib.PriceLevels

/-! The four operations read off a book's levels: for each operation, what happens
to the level at every side and price. Both sides stay best first in every run. -/

namespace Marketlib
namespace OrderBook

variable {maxLevels maxOrders : ℕ}

/-- The level listed on a side at a price. -/
def levelAt (b : OrderBook maxLevels maxOrders) (side : Side) (price : Price) :
    Option PriceLevel := (b.levels side).at? price

/-- Both sides list their levels best first, no price twice. -/
def BestFirst (b : OrderBook maxLevels maxOrders) : Prop :=
  ∀ side, (b.levels side).BestFirst side

@[simp] theorem levels_setLevels (b : OrderBook maxLevels maxOrders) (l : Levels maxLevels)
    (side s : Side) : (b.setLevels l side).levels s = if s = side then l else b.levels s := by
  cases side <;> cases s <;> rfl

@[simp] theorem orders_setLevels (b : OrderBook maxLevels maxOrders) (l : Levels maxLevels)
    (side : Side) : (b.setLevels l side).orders = b.orders := by cases side <;> rfl

@[simp] theorem levels_with (b : OrderBook maxLevels maxOrders)
    (o : Finmap fun _ : OrderId => OrderLoc) (n : UInt64) (s : Side) :
    ({ b with orders := o, sequence := n } : OrderBook maxLevels maxOrders).levels s =
      b.levels s := by
  cases s <;> rfl

/-- Replacing one side by a best-first side changes only the levels of that side. -/
theorem setLevels_spec {b : OrderBook maxLevels maxOrders} (hb : b.BestFirst)
    {l : Levels maxLevels} {side : Side} (hl : l.BestFirst side) :
    (b.setLevels l side).BestFirst ∧
    ∀ s p, (b.setLevels l side).levelAt s p = if s = side then l.at? p else b.levelAt s p := by
  refine ⟨fun s => ?_,fun s p => ?_⟩
  · rw [levels_setLevels]
    split_ifs with hs
    · rwa [hs]
    · exact hb s
  · simp only [levelAt,levels_setLevels]
    split_ifs <;> rfl

/-- The order table and the sequence number are no part of the levels. -/
theorem with_spec {b : OrderBook maxLevels maxOrders} (hb : b.BestFirst)
    (o : Finmap fun _ : OrderId => OrderLoc) (n : UInt64) :
    ({ b with orders := o, sequence := n } : OrderBook maxLevels maxOrders).BestFirst ∧
    ∀ s p, ({ b with orders := o, sequence := n } : OrderBook maxLevels maxOrders).levelAt s p =
      b.levelAt s p := by
  refine ⟨fun s => ?_,fun s p => ?_⟩
  · rw [levels_with]
    exact hb s
  · rw [levelAt,levels_with]
    rfl

/-- Write the cell that `find_level` points to. -/
theorem writeLevel_spec {b : OrderBook maxLevels maxOrders} (hb : b.BestFirst) {side : Side}
    {price : Price} {i : Fin maxLevels} (hf : (b.levels side).findLevel price = some i)
    (lv : PriceLevel) (hlv : lv.price = ((b.levels side).cell i).price) :
    (b.setLevels ((b.levels side).write i lv) side).BestFirst ∧
    ∀ s p, (b.setLevels ((b.levels side).write i lv) side).levelAt s p =
      if s = side ∧ p = price then some lv else b.levelAt s p := by
  obtain ⟨hi,hprice,_⟩ := Levels.findLevel_eq_some hf
  obtain ⟨hsorted,hat⟩ := Levels.write_spec (hb side) hi lv hlv
  obtain ⟨hbest,hlevel⟩ := setLevels_spec hb hsorted
  refine ⟨hbest,fun s p => ?_⟩
  rw [hlevel,hat,hlv,hprice]
  by_cases hs : s = side
  · subst hs
    simp [levelAt]
  · simp [hs]

/-- `erase_level` unlists one price of one side. -/
theorem eraseLevel_spec {b : OrderBook maxLevels maxOrders} (hb : b.BestFirst) (side : Side)
    (price : Price) :
    (b.eraseLevel side price).BestFirst ∧
    ∀ s p, (b.eraseLevel side price).levelAt s p =
      if s = side ∧ p = price then none else b.levelAt s p := by
  obtain ⟨hsorted,hat⟩ := Levels.eraseLevel_spec (hb side) price
  obtain ⟨hbest,hlevel⟩ := setLevels_spec hb hsorted
  refine ⟨hbest,fun s p => ?_⟩
  rw [eraseLevel,hlevel,hat]
  by_cases hs : s = side
  · subst hs
    simp [levelAt]
  · simp [hs]

/-! ### Taking an order off its level -/

/-- The level without one order of quantity `qty`; gone when it was the last one. -/
def withoutOrder (qty : Qty) (lv : PriceLevel) : Option PriceLevel :=
  if lv.orderCount-1 = 0 then none
  else some { lv with qty := lv.qty-qty, orderCount := lv.orderCount-1 }

/-- The update that `remove_qty` and the filling branch of `on_execute` share. -/
theorem dropOrder_spec {b : OrderBook maxLevels maxOrders} (hb : b.BestFirst) {side : Side}
    {price : Price} {i : Fin maxLevels} (hf : (b.levels side).findLevel price = some i)
    (qty : Qty) {lv : PriceLevel} (hlv : lv = (b.levels side).cell i)
    {b' : OrderBook maxLevels maxOrders} (hb' : b' = b.setLevels ((b.levels side).write i
      { lv with qty := lv.qty-qty, orderCount := lv.orderCount-1 }) side) :
    (if lv.orderCount-1 = 0 then b'.eraseLevel side price else b').BestFirst ∧
    ∀ s p, (if lv.orderCount-1 = 0 then b'.eraseLevel side price else b').levelAt s p =
      if s = side ∧ p = price then (b.levelAt side price).bind (withoutOrder qty)
      else b.levelAt s p := by
  obtain ⟨_,_,hat⟩ := Levels.findLevel_eq_some hf
  have hlevel : b.levelAt side price = some lv := by rw [hlv]; exact hat
  obtain ⟨hbest,hwrite⟩ := writeLevel_spec hb hf
    { lv with qty := lv.qty-qty, orderCount := lv.orderCount-1 } (by rw [hlv])
  rw [← hb'] at hbest hwrite
  rw [hlevel,Option.bind_some,withoutOrder]
  by_cases hempty : lv.orderCount-1 = 0
  · simp only [hempty,if_true]
    obtain ⟨hbest',herase⟩ := eraseLevel_spec hbest side price
    refine ⟨hbest',fun s p => ?_⟩
    rw [herase,hwrite]
    split_ifs <;> rfl
  · simp only [hempty,if_false]
    exact ⟨hbest,hwrite⟩

theorem removeQty_spec {b : OrderBook maxLevels maxOrders} (hb : b.BestFirst) (loc : OrderLoc) :
    (b.removeQty loc).BestFirst ∧
    ∀ s p, (b.removeQty loc).levelAt s p =
      if s = loc.side ∧ p = loc.price then
        (b.levelAt loc.side loc.price).bind (withoutOrder loc.qty)
      else b.levelAt s p := by
  unfold removeQty
  cases hf : (b.levels loc.side).findLevel loc.price with
  | none =>
    refine ⟨hb,fun s p => ?_⟩
    have hnone : b.levelAt loc.side loc.price = none := Levels.findLevel_eq_none.mp hf
    split_ifs with h
    · rw [h.1,h.2,hnone,Option.bind_none]
    · rfl
  | some i => exact dropOrder_spec hb hf loc.qty rfl rfl

/-! ### The operations on a resting order -/

theorem onCancel_absent {b : OrderBook maxLevels maxOrders} {id : OrderId}
    (h : b.orders.lookup id = none) : b.onCancel id = b := by
  simp [onCancel,h]

theorem onCancel_spec {b : OrderBook maxLevels maxOrders} (hb : b.BestFirst) {id : OrderId}
    {loc : OrderLoc} (h : b.orders.lookup id = some loc) :
    (b.onCancel id).BestFirst ∧ (b.onCancel id).orders = b.orders.erase id ∧
    (b.onCancel id).sequence = b.sequence+1 ∧
    ∀ s p, (b.onCancel id).levelAt s p =
      if s = loc.side ∧ p = loc.price then
        (b.levelAt loc.side loc.price).bind (withoutOrder loc.qty)
      else b.levelAt s p := by
  obtain ⟨hbest,hlevel⟩ := removeQty_spec hb loc
  simp only [onCancel,h]
  obtain ⟨hbest',hlevel'⟩ := with_spec hbest _ _
  exact ⟨hbest',trivial,trivial,fun s p => (hlevel' s p).trans (hlevel s p)⟩

theorem onModify_ignored {b : OrderBook maxLevels maxOrders} {id : OrderId} {newQty : Qty}
    (h : ∀ loc, b.orders.lookup id = some loc → b.levelAt loc.side loc.price = none) :
    b.onModify id newQty = b := by
  unfold onModify
  cases hloc : b.orders.lookup id with
  | none => rfl
  | some loc => simp only [Levels.findLevel_eq_none.mpr (h loc hloc)]

theorem onModify_spec {b : OrderBook maxLevels maxOrders} (hb : b.BestFirst) {id : OrderId}
    {loc : OrderLoc} (h : b.orders.lookup id = some loc) {lv : PriceLevel}
    (hlv : b.levelAt loc.side loc.price = some lv) (newQty : Qty) :
    (b.onModify id newQty).BestFirst ∧
    (b.onModify id newQty).orders = b.orders.insert id { loc with qty := newQty } ∧
    (b.onModify id newQty).sequence = b.sequence+1 ∧
    ∀ s p, (b.onModify id newQty).levelAt s p =
      if s = loc.side ∧ p = loc.price then some { lv with qty := lv.qty-loc.qty+newQty }
      else b.levelAt s p := by
  obtain ⟨i,hf,_,hcell⟩ := Levels.findLevel_of_at? hlv
  obtain ⟨hbest,hlevel⟩ := writeLevel_spec hb hf
    { lv with qty := lv.qty-loc.qty+newQty } (by rw [hcell])
  simp only [onModify,h,hf,hcell]
  obtain ⟨hbest',hlevel'⟩ := with_spec hbest _ _
  exact ⟨hbest',trivial,trivial,fun s p => (hlevel' s p).trans (hlevel s p)⟩

theorem onExecute_ignored {b : OrderBook maxLevels maxOrders} {id : OrderId} {execQty : Qty}
    {moved : Option OrderLoc}
    (h : ∀ loc, b.orders.lookup id = some loc → b.levelAt loc.side loc.price = none) :
    b.onExecute id execQty moved = b := by
  unfold onExecute
  cases hloc : b.orders.lookup id with
  | none => rfl
  | some loc => simp only [Levels.findLevel_eq_none.mpr (h loc hloc)]

/-- A partial or over-fill: the quantities go down (and may wrap), the order stays. -/
theorem onExecute_partly {b : OrderBook maxLevels maxOrders} (hb : b.BestFirst) {id : OrderId}
    {loc : OrderLoc} (h : b.orders.lookup id = some loc) {lv : PriceLevel}
    (hlv : b.levelAt loc.side loc.price = some lv) {execQty : Qty}
    (hq : loc.qty-execQty ≠ 0) (moved : Option OrderLoc) :
    (b.onExecute id execQty moved).BestFirst ∧
    (b.onExecute id execQty moved).orders =
      b.orders.insert id { loc with qty := loc.qty-execQty } ∧
    (b.onExecute id execQty moved).sequence = b.sequence+1 ∧
    ∀ s p, (b.onExecute id execQty moved).levelAt s p =
      if s = loc.side ∧ p = loc.price then some { lv with qty := lv.qty-execQty }
      else b.levelAt s p := by
  obtain ⟨i,hf,_,hcell⟩ := Levels.findLevel_of_at? hlv
  obtain ⟨hbest,hlevel⟩ := writeLevel_spec hb hf
    { lv with qty := lv.qty-execQty } (by rw [hcell])
  simp only [onExecute,h,hf,hcell,if_neg hq]
  obtain ⟨hbest',hlevel'⟩ := with_spec hbest _ _
  exact ⟨hbest',trivial,trivial,fun s p => (hlevel' s p).trans (hlevel s p)⟩

/-- Filling an order is cancelling it, provided the record read after the erase still
names the filled order's side and price, or its level is not empty. -/
theorem onExecute_fill_eq_onCancel {b : OrderBook maxLevels maxOrders} {id : OrderId}
    {loc : OrderLoc} (h : b.orders.lookup id = some loc) {i : Fin maxLevels}
    (hf : (b.levels loc.side).findLevel loc.price = some i) {moved : Option OrderLoc}
    (hread : ((b.levels loc.side).cell i).orderCount-1 ≠ 0 ∨
      ∀ rec, moved = some rec → rec.side = loc.side ∧ rec.price = loc.price) :
    b.onExecute id loc.qty moved = b.onCancel id := by
  simp only [onExecute,onCancel,removeQty,h,hf,sub_self,if_true]
  by_cases hempty : ((b.levels loc.side).cell i).orderCount-1 = 0
  · have hrec : (moved.getD { loc with qty := 0 }).side = loc.side ∧
        (moved.getD { loc with qty := 0 }).price = loc.price := by
      cases moved with
      | none => exact ⟨rfl,rfl⟩
      | some rec => exact hread.resolve_left (not_not_intro hempty) rec rfl
    simp only [hempty,if_true,hrec.1,hrec.2]
    cases loc.side <;> rfl
  · simp only [hempty,if_false]
    cases loc.side <;> rfl

/-- Whatever record is read after the erase, both sides stay best first. -/
theorem onExecute_bestFirst {b : OrderBook maxLevels maxOrders} (hb : b.BestFirst) (id : OrderId)
    (execQty : Qty) (moved : Option OrderLoc) : (b.onExecute id execQty moved).BestFirst := by
  unfold onExecute
  cases hloc : b.orders.lookup id with
  | none => exact hb
  | some loc =>
    simp only
    cases hf : (b.levels loc.side).findLevel loc.price with
    | none => exact hb
    | some i =>
      have hw : ∀ qty orderCount, (b.setLevels ((b.levels loc.side).write i
          ⟨((b.levels loc.side).cell i).price,qty,orderCount⟩) loc.side).BestFirst :=
        fun _ _ => (writeLevel_spec hb hf _ (by rfl)).1
      simp only
      split_ifs with hq hempty
      · exact (with_spec (eraseLevel_spec (with_spec (hw _ _) _ _).1 _ _).1 _ _).1
      · exact (with_spec (hw _ _) _ _).1
      · exact (with_spec (hw _ _) _ _).1

/-! ### Adding an order -/

/-- A level, or a fresh one at `price`, with one more order of quantity `qty`. -/
def withOrder (price : Price) (qty : Qty) (lv : Option PriceLevel) : PriceLevel :=
  let lv := lv.getD ⟨price,0,0⟩
  { lv with qty := lv.qty+qty, orderCount := lv.orderCount+1 }

theorem onAdd_refused {b : OrderBook maxLevels maxOrders} (h : maxOrders ≤ b.orders.keys.card)
    (id : OrderId) (side : Side) (price : Price) (qty : Qty) :
    b.onAdd id side price qty = some (false,b) := by
  simp [onAdd,h]

/-- Credit an order to a listed cell of its own price. -/
theorem credit_spec {b : OrderBook maxLevels maxOrders} (hb : b.BestFirst) {side : Side}
    {price : Price} {l : Levels maxLevels} (hl : l.BestFirst side) {i : Fin maxLevels}
    (hi : i.val < l.count) {lv : PriceLevel} (hcell : l.cell i = lv) (hprice : lv.price = price)
    (hat : ∀ p, l.at? p = if p = price then some lv else b.levelAt side p) (qty : Qty)
    (o : Finmap fun _ : OrderId => OrderLoc) (n : UInt64) {b' : OrderBook maxLevels maxOrders}
    (hb' : b' = { b.setLevels (l.write i
      { lv with qty := lv.qty+qty, orderCount := lv.orderCount+1 }) side with
        orders := o, sequence := n }) :
    i.val < (b'.levels side).count ∧
    (b'.levels side).cell i = { lv with qty := lv.qty+qty, orderCount := lv.orderCount+1 } ∧
    b'.BestFirst ∧
    ∀ s p, b'.levelAt s p =
      if s = side ∧ p = price then some { lv with qty := lv.qty+qty, orderCount := lv.orderCount+1 }
      else b.levelAt s p := by
  obtain ⟨hbest,hwrite⟩ := Levels.write_spec hl hi
    { lv with qty := lv.qty+qty, orderCount := lv.orderCount+1 } (by rw [hcell])
  obtain ⟨hbest',hlevel⟩ := setLevels_spec hb hbest
  obtain ⟨hbest'',hlevel'⟩ := with_spec hbest' o n
  rw [← hb'] at hbest'' hlevel'
  have hlevels : b'.levels side =
      l.write i { lv with qty := lv.qty+qty, orderCount := lv.orderCount+1 } := by
    rw [hb',levels_with,levels_setLevels,if_pos rfl]
  refine ⟨by rwa [hlevels],by rw [hlevels,Levels.write_cell],hbest'',fun s p => ?_⟩
  rw [hlevel',hlevel,hwrite,hat,hprice]
  by_cases hs : s = side
  · subst hs
    by_cases hp : p = price <;> simp [hp]
  · simp [hs]

/-- With the price listed or room for it, the order is credited to the level of its own
price, inside the array, and to no other. -/
theorem onAdd_credits {b : OrderBook maxLevels maxOrders} (hb : b.BestFirst)
    (hcard : b.orders.keys.card < maxOrders) {side : Side} {price : Price}
    (hroom : b.levelAt side price ≠ none ∨ (b.levels side).count < maxLevels)
    (id : OrderId) (qty : Qty) :
    ∃ (b' : OrderBook maxLevels maxOrders) (i : Fin maxLevels),
      b.onAdd id side price qty = some (true,b') ∧
      ((b.levels side).findOrInsertLevel side price).2 = i.val ∧
      i.val < (b'.levels side).count ∧
      (b'.levels side).cell i = withOrder price qty (b.levelAt side price) ∧
      b'.BestFirst ∧ b'.orders = b.orders.insert id ⟨side,price,qty⟩ ∧
      b'.sequence = b.sequence+1 ∧
      ∀ s p, b'.levelAt s p =
        if s = side ∧ p = price then some (withOrder price qty (b.levelAt side price))
        else b.levelAt s p := by
  rcases Levels.findOrInsertLevel_cases (hb side) price with
    ⟨i,hres,hi,hat⟩ | ⟨hnone,_,l,i,hres,hi,hcell,hl,hat⟩ | ⟨hnone,hfull,_⟩
  · have hlevel : b.levelAt side price = some ((b.levels side).cell i) := hat
    obtain ⟨h1,h2,h3,h4⟩ := credit_spec hb (hb side) hi rfl (Levels.at?_price hat)
      (fun p => by
        split_ifs with hp
        · rw [hp,hat]
        · rfl) qty (b.orders.insert id ⟨side,price,qty⟩) (b.sequence+1) rfl
    rw [hlevel]
    refine ⟨_,i,?_,by rw [hres],h1,h2,h3,rfl,rfl,h4⟩
    simp [onAdd,not_le.mpr hcard,hres]
  · have hlevel : b.levelAt side price = none := hnone
    obtain ⟨h1,h2,h3,h4⟩ := credit_spec hb hl hi hcell rfl hat qty
      (b.orders.insert id ⟨side,price,qty⟩) (b.sequence+1) rfl
    rw [hlevel]
    refine ⟨_,i,?_,by rw [hres],h1,h2,h3,rfl,rfl,h4⟩
    simp [onAdd,not_le.mpr hcard,hres,hcell]
  · rcases hroom with h | h
    · exact absurd hnone h
    · exact absurd hfull h.ne

/-- A full side that does not list the price: nothing is defined when the scan ran off
the array, else the order is credited to the level the scan stopped at. -/
theorem onAdd_no_room {b : OrderBook maxLevels maxOrders} (hb : b.BestFirst)
    (hcard : b.orders.keys.card < maxOrders) {side : Side} {price : Price}
    (hnone : b.levelAt side price = none) (hfull : (b.levels side).count = maxLevels)
    (id : OrderId) (qty : Qty) :
    ∃ i ≤ maxLevels, ((b.levels side).findOrInsertLevel side price).2 = i ∧
      (∀ lv ∈ (b.levels side).span.take i, Better side lv.price price) ∧
      (∀ lv ∈ (b.levels side).span.drop i, Better side price lv.price) ∧
      (i = maxLevels → b.onAdd id side price qty = none) ∧
      ∀ h : i < maxLevels, ∃ b' : OrderBook maxLevels maxOrders,
        b.onAdd id side price qty = some (true,b') ∧
        (b'.levels side).cell ⟨i,h⟩ =
          withOrder price qty (some ((b.levels side).cell ⟨i,h⟩)) ∧
        b'.BestFirst ∧
        b'.orders = b.orders.insert id ⟨side,price,qty⟩ ∧ b'.sequence = b.sequence+1 ∧
        ∀ s p, b'.levelAt s p =
          if s = side ∧ p = ((b.levels side).cell ⟨i,h⟩).price then
            some (withOrder price qty (some ((b.levels side).cell ⟨i,h⟩)))
          else b.levelAt s p := by
  rcases Levels.findOrInsertLevel_cases (hb side) price with
    ⟨i,_,_,hat⟩ | ⟨_,hroom,_⟩ | ⟨_,_,i,hi,hres,hbefore,hbehind⟩
  · rw [levelAt,hat] at hnone
    cases hnone
  · omega
  · refine ⟨i,hi,by rw [hres],hbefore,hbehind,fun hi' => ?_,fun h => ?_⟩
    · simp [onAdd,not_le.mpr hcard,hres,hi']
    · have hi' : i < (b.levels side).span.length := by rw [Levels.span_length]; omega
      have hcell : (b.levels side).span[i] = (b.levels side).cell ⟨i,h⟩ :=
        Levels.span_getElem _ _ hi' h
      have hat : (b.levels side).at? ((b.levels side).cell ⟨i,h⟩).price =
          some ((b.levels side).cell ⟨i,h⟩) :=
        (KeySorted.lookup_eq_some (hb side)).mpr ⟨hcell ▸ List.getElem_mem hi',rfl⟩
      obtain ⟨_,h2,h3,h4⟩ := credit_spec (i := ⟨i,h⟩) hb (hb side) (by simpa using hi') rfl rfl
        (fun p => by
          split_ifs with hp
          · rw [hp]
            exact hat
          · rfl) qty (b.orders.insert id ⟨side,price,qty⟩) (b.sequence+1) rfl
      refine ⟨_,?_,h2,h3,rfl,rfl,h4⟩
      simp [onAdd,not_le.mpr hcard,hres,h]

/-! ### Every run -/

theorem create_bestFirst (symbolId : UInt32) :
    (create symbolId : OrderBook maxLevels maxOrders).BestFirst := by
  intro side
  cases side <;> simp [create,levels,Levels.BestFirst,KeySorted.Sorted]

theorem onAdd_bestFirst {b b' : OrderBook maxLevels maxOrders} (hb : b.BestFirst) {id : OrderId}
    {side : Side} {price : Price} {qty : Qty} {accepted : Bool}
    (h : b.onAdd id side price qty = some (accepted,b')) : b'.BestFirst := by
  by_cases hcard : b.orders.keys.card < maxOrders
  · by_cases hroom : b.levelAt side price ≠ none ∨ (b.levels side).count < maxLevels
    · obtain ⟨c,_,hc,_,_,_,hbest,_⟩ := onAdd_credits hb hcard hroom id qty
      simp_all
    · push Not at hroom
      have hfull := le_antisymm (b.levels side).count_le hroom.2
      obtain ⟨i,hi,_,_,_,hpast,hinside⟩ := onAdd_no_room hb hcard hroom.1 hfull id qty
      rcases hi.eq_or_lt with hi | hi
      · simp [hpast hi] at h
      · obtain ⟨c,hc,_,hbest,_⟩ := hinside hi
        simp_all
  · rw [onAdd_refused (not_lt.mp hcard)] at h
    simp_all

theorem step_bestFirst {b b' : OrderBook maxLevels maxOrders} (hb : b.BestFirst) {op : Op}
    (h : step b op = some b') : b'.BestFirst := by
  cases op with
  | add id side price qty =>
    simp only [step,Option.map_eq_some_iff] at h
    obtain ⟨⟨accepted,c⟩,hc,rfl⟩ := h
    exact onAdd_bestFirst hb hc
  | cancel id =>
    cases h
    cases hloc : b.orders.lookup id with
    | none => rwa [onCancel_absent hloc]
    | some loc => exact (onCancel_spec hb hloc).1
  | modify id newQty =>
    cases h
    by_cases hlisted : ∀ loc, b.orders.lookup id = some loc → b.levelAt loc.side loc.price = none
    · rwa [onModify_ignored hlisted]
    · push Not at hlisted
      obtain ⟨loc,hloc,hlv⟩ := hlisted
      obtain ⟨lv,hlv⟩ := Option.ne_none_iff_exists'.mp hlv
      exact (onModify_spec hb hloc hlv newQty).1
  | execute id execQty moved =>
    cases h
    exact onExecute_bestFirst hb id execQty moved

/-- Best first in every state of every run. -/
theorem reachable_bestFirst {b : OrderBook maxLevels maxOrders} {symbolId : UInt32}
    (h : Transition.Reachable step (create symbolId) b) : b.BestFirst :=
  h.invariant (create_bestFirst symbolId) fun _ _ _ hs _ hstep => step_bestFirst hs hstep

end OrderBook
end Marketlib
