import Mathlib.Order.CompletePartialOrder
import Mathlib.Order.Interval.Set.Disjoint
import Marketlib.Alignment
import Marketlib.Transition

/-! The bump-pointer arena, in the 64-bit arithmetic of its source. An address is a word; the
blocks handed out since the last `reset` are recorded and read by no step. -/

namespace Marketlib

/-- `alignof(std::max_align_t)` -/
def maxAlign : ℕ := 16

namespace ArenaAllocator

/-- Where `buf_` lies and how long it is; the address behind its end can be represented. -/
structure Buffer where
  base : UInt64
  capacity : UInt64
  aligned : maxAlign ∣ base.toNat
  representable : base.toNat+capacity.toNat < 2^64

variable (buf : Buffer)

/-- `allocate` from the offset `offset_`: the result, and the offset afterwards. -/
def allocate (offset size : UInt64) (align : Alignment) : Option UInt64 × UInt64 :=
  let aligned := align.alignUp offset
  if buf.capacity < aligned+size then (none,offset)
  else (some (buf.base+aligned),aligned+size)

/-- A block that was handed out. -/
structure Block where
  addr : UInt64
  size : UInt64
  deriving DecidableEq

/-- Its addresses, counted without wrapping. -/
def Block.bytes (b : Block) : Set ℕ := Set.Ico b.addr.toNat (b.addr.toNat+b.size.toNat)

structure State where
  /-- `used()`. -/
  offset : UInt64
  blocks : List Block

def start : State := ⟨0,[]⟩

/-- `construct<T>` allocates with the size and the alignment of `T`. -/
inductive Op
  | allocate (size : UInt64) (align : Alignment)
  | reset

def step (s : State) : Op → Option State
  | .allocate size align => match allocate buf s.offset size align with
    | (none,offset) => some { s with offset }
    | (some addr,offset) => some ⟨offset,⟨addr,size⟩ :: s.blocks⟩
  | .reset => some ⟨0,[]⟩

/-! ### What an allocation should do -/

/-- Some block of this size and alignment lies in the buffer at or after the offset. -/
def Fits (offset size : UInt64) (align : Alignment) : Prop :=
  ∃ off, offset.toNat ≤ off ∧ align.size ∣ buf.base.toNat+off ∧
    off+size.toNat ≤ buf.capacity.toNat

structure Allocates (s : State) (size : UInt64) (align : Alignment) : Prop where
  aligned : ∀ addr ∈ (allocate buf s.offset size align).1, align.size ∣ addr.toNat
  inside : ∀ addr ∈ (allocate buf s.offset size align).1,
    buf.base.toNat ≤ addr.toNat ∧ addr.toNat+size.toNat ≤ buf.base.toNat+buf.capacity.toNat
  disjoint : ∀ addr ∈ (allocate buf s.offset size align).1, ∀ b ∈ s.blocks,
    Disjoint (Block.bytes ⟨addr,size⟩) b.bytes
  refused : (allocate buf s.offset size align).1 = none ↔ ¬Fits buf s.offset size align
  unchanged : (allocate buf s.offset size align).1 = none →
    (allocate buf s.offset size align).2 = s.offset

/-- Every allocation does what it should. -/
def Correct (s : State) : Op → Prop
  | .allocate size align => Allocates buf s size align
  | .reset => True

/-- Where the block ends when the offset is rounded up, counted without wrapping. -/
def blockEnd (offset size : UInt64) (align : Alignment) : ℕ :=
  align.ceil offset.toNat+size.toNat

/-- The buffer is aligned as requested and the block's end is below `2^64`; or nothing fits, and
the end is past the capacity as a word, too. -/
def Admissible (s : State) : Op → Prop
  | .allocate size align =>
    (align.size ∣ buf.base.toNat ∧ blockEnd s.offset size align < 2^64) ∨
    (¬Fits buf s.offset size align ∧
      (buf.capacity.toNat < blockEnd s.offset size align ∧ blockEnd s.offset size align < 2^64 ∨
        2^64+buf.capacity.toNat < blockEnd s.offset size align))
  | .reset => True

/-- The sum that `allocate` compares with the capacity. -/
theorem end_toNat (offset size : UInt64) (align : Alignment) :
    (align.alignUp offset+size).toNat = blockEnd offset size align % 2^64 := by
  rw [UInt64.toNat_add,align.alignUp_toNat,blockEnd,Nat.mod_add_mod]

theorem allocate_cases (offset size : UInt64) (align : Alignment) :
    (buf.capacity.toNat < blockEnd offset size align % 2^64 ∧
      allocate buf offset size align = (none,offset)) ∨
    (blockEnd offset size align % 2^64 ≤ buf.capacity.toNat ∧ allocate buf offset size align =
      (some (buf.base+align.alignUp offset),align.alignUp offset+size)) := by
  unfold allocate
  rw [← end_toNat]
  by_cases hfull : buf.capacity < align.alignUp offset+size
  · exact .inl ⟨UInt64.lt_iff_toNat_lt.mp hfull,if_pos hfull⟩
  · exact .inr ⟨not_lt.mp fun h => hfull (UInt64.lt_iff_toNat_lt.mpr h),if_neg hfull⟩

variable {buf}

/-- In a buffer that is aligned as requested the block at the rounded offset is the first. -/
theorem fits_iff {offset size : UInt64} {align : Alignment} (h : align.size ∣ buf.base.toNat) :
    Fits buf offset size align ↔ blockEnd offset size align ≤ buf.capacity.toNat := by
  constructor
  · rintro ⟨off,hle,hdvd,hend⟩
    have hfirst := (align.ceil_le_iff ((Nat.dvd_add_iff_right h).mpr hdvd)).mpr hle
    exact (Nat.add_le_add_right hfirst _).trans hend
  · intro hend
    exact ⟨align.ceil offset.toNat,align.le_ceil _,
      (Nat.dvd_add_iff_right h).mp (align.dvd_ceil _),hend⟩

/-- The blocks end before the offset, and the offset is in the buffer. -/
structure Inv (buf : Buffer) (s : State) : Prop where
  offset_le : s.offset.toNat ≤ buf.capacity.toNat
  blocks_le : ∀ b ∈ s.blocks, b.addr.toNat+b.size.toNat ≤ buf.base.toNat+s.offset.toNat

theorem start_inv : Inv buf start := ⟨Nat.zero_le _,by simp [start]⟩

/-- A block handed out in an aligned buffer, where the end does not wrap. -/
theorem allocate_some {s : State} {size : UInt64} {align : Alignment}
    (hword : blockEnd s.offset size align < 2^64)
    (hle : blockEnd s.offset size align ≤ buf.capacity.toNat) :
    (align.alignUp s.offset).toNat = align.ceil s.offset.toNat ∧
    (buf.base+align.alignUp s.offset).toNat = buf.base.toNat+align.ceil s.offset.toNat ∧
    (align.alignUp s.offset+size).toNat = blockEnd s.offset size align := by
  have hrep := buf.representable
  have hceil : align.ceil s.offset.toNat ≤ blockEnd s.offset size align := Nat.le_add_right ..
  have hup : (align.alignUp s.offset).toNat = align.ceil s.offset.toNat := by
    rw [align.alignUp_toNat,Nat.mod_eq_of_lt (hceil.trans_lt hword)]
  refine ⟨hup,?_,?_⟩
  · rw [UInt64.toNat_add,hup,Nat.mod_eq_of_lt (by omega)]
  · rw [end_toNat,Nat.mod_eq_of_lt hword]

theorem admissible_mod {s : State} {size : UInt64} {align : Alignment}
    (hend : buf.capacity.toNat < blockEnd s.offset size align ∧
      blockEnd s.offset size align < 2^64 ∨
      2^64+buf.capacity.toNat < blockEnd s.offset size align) :
    buf.capacity.toNat < blockEnd s.offset size align % 2^64 := by
  have hceil := align.ceil_le_word s.offset
  have hsize := size.toNat_lt
  have hend' : blockEnd s.offset size align = align.ceil s.offset.toNat+size.toNat := rfl
  omega

/-- An admissible allocation does what it should. -/
theorem allocates_of_admissible {s : State} {size : UInt64} {align : Alignment} (h : Inv buf s)
    (hadm : Admissible buf s (.allocate size align)) : Allocates buf s size align := by
  rcases hadm with ⟨hdvd,hword⟩ | ⟨hfits,hend⟩
  · rcases allocate_cases buf s.offset size align with ⟨hfull,heq⟩ | ⟨hroom,heq⟩
    · rw [Nat.mod_eq_of_lt hword] at hfull
      refine ⟨by simp [heq],by simp [heq],by simp [heq],?_,by simp [heq]⟩
      rw [heq,fits_iff hdvd]
      simpa using hfull
    · rw [Nat.mod_eq_of_lt hword] at hroom
      obtain ⟨-,haddr,-⟩ := allocate_some hword hroom
      have hle := align.le_ceil s.offset.toNat
      rw [blockEnd] at hroom
      have hsome {P : UInt64 → Prop} (hp : P (buf.base+align.alignUp s.offset)) :
          ∀ addr ∈ (allocate buf s.offset size align).1, P addr := by
        rw [heq]
        rintro _ ⟨⟩
        exact hp
      refine ⟨hsome ?_,hsome ?_,hsome fun b hb => ?_,?_,by simp [heq]⟩
      · rw [haddr]
        exact Nat.dvd_add hdvd (align.dvd_ceil _)
      · rw [haddr]
        omega
      · have hold := h.blocks_le b hb
        rw [Block.bytes,Block.bytes,Set.Ico_disjoint_Ico]
        simp only [haddr]
        omega
      · rw [heq,fits_iff hdvd]
        simpa [blockEnd] using hroom
  · rcases allocate_cases buf s.offset size align with ⟨hfull,heq⟩ | ⟨hroom,-⟩
    · exact ⟨by simp [heq],by simp [heq],by simp [heq],by simp [heq,hfits],by simp [heq]⟩
    · exact absurd (admissible_mod hend) (not_lt.mpr hroom)

/-- An address handed out at the requested alignment shows that the buffer has it. -/
theorem dvd_base {offset : UInt64} {align : Alignment}
    (h : align.size ∣ (buf.base+align.alignUp offset).toNat) : align.size ∣ buf.base.toNat := by
  have hup : align.size ∣ (align.alignUp offset).toNat := by
    rw [align.alignUp_toNat,Nat.dvd_mod_iff align.dvd_word]
    exact align.dvd_ceil _
  rw [UInt64.toNat_add,Nat.dvd_mod_iff align.dvd_word] at h
  exact (Nat.dvd_add_iff_left hup).mpr h

theorem admissible_of_allocates {s : State} {size : UInt64} {align : Alignment}
    (h : Allocates buf s size align) : Admissible buf s (.allocate size align) := by
  have hceil := align.ceil_le_word s.offset
  have hsize := size.toNat_lt
  have hend : blockEnd s.offset size align = align.ceil s.offset.toNat+size.toNat := rfl
  have hrep := buf.representable
  rcases allocate_cases buf s.offset size align with ⟨hfull,heq⟩ | ⟨hroom,heq⟩
  · refine .inr ⟨h.refused.mp (by rw [heq]),?_⟩
    omega
  · have hdvd := dvd_base (h.aligned _ (by rw [heq]; rfl))
    have hfits : Fits buf s.offset size align := not_not.mp fun hnot => by
      have hnone := h.refused.mpr hnot
      simp [heq] at hnone
    rw [fits_iff hdvd] at hfits
    exact .inl ⟨hdvd,by omega⟩

theorem correct_iff {s : State} (h : Inv buf s) (op : Op) :
    Correct buf s op ↔ Admissible buf s op := by
  cases op with
  | allocate size align => exact ⟨admissible_of_allocates,allocates_of_admissible h⟩
  | reset => exact Iff.rfl

theorem step_inv {s t : State} {op : Op} (h : Inv buf s) (hadm : Admissible buf s op)
    (hstep : step buf s op = some t) : Inv buf t := by
  cases op with
  | reset =>
    cases hstep
    exact start_inv
  | allocate size align =>
    simp only [step] at hstep
    rcases allocate_cases buf s.offset size align with ⟨-,heq⟩ | ⟨hroom,heq⟩
    · rw [heq] at hstep
      cases hstep
      exact h
    · rw [heq] at hstep
      cases hstep
      rcases hadm with ⟨-,hword⟩ | ⟨-,hend⟩
      · rw [Nat.mod_eq_of_lt hword] at hroom
        obtain ⟨-,haddr,hoffset⟩ := allocate_some hword hroom
        have hle := align.le_ceil s.offset.toNat
        have hend : blockEnd s.offset size align = align.ceil s.offset.toNat+size.toNat := rfl
        refine ⟨hoffset ▸ hroom,fun b hb => ?_⟩
        simp only [hoffset]
        rcases List.mem_cons.mp hb with rfl | hb
        · simp only [haddr]
          omega
        · have hold := h.blocks_le b hb
          omega
      · exact absurd (admissible_mod hend) (not_lt.mpr hroom)

/-- In any run every allocation does what it should if and only if every one is admissible. -/
theorem run_correct_iff (buf : Buffer) (ops : List Op) :
    Transition.Admits (step buf) (Correct buf) start ops ↔
      Transition.Admits (step buf) (Admissible buf) start ops :=
  Transition.admits_congr (fun _ op h => correct_iff h op) (fun _ _ _ => step_inv) start_inv

/-- Sixty-four bytes at address 16. -/
def smallBuffer : Buffer := ⟨16,64,⟨1,rfl⟩,by decide⟩

def sixteen : Alignment := ⟨16,4,rfl⟩

def sixtyFour : Alignment := ⟨64,6,rfl⟩

/-- A request near `2^64` is granted and moves the offset back, and the next block overlaps the
first; a request for an alignment of 64 is granted at address 16. -/
theorem wrapped_request_overlaps :
    (∃ s, Transition.run (step smallBuffer) start [.allocate 32 sixteen,
        .allocate 18446744073709551600 sixteen,.allocate 16 sixteen] = some s ∧
      s.blocks = [⟨32,16⟩,⟨48,18446744073709551600⟩,⟨16,32⟩] ∧
      ¬Disjoint (Block.bytes ⟨32,16⟩) (Block.bytes ⟨16,32⟩)) ∧
    (allocate smallBuffer 0 1 sixtyFour).1 = some 16 ∧ ¬sixtyFour.size ∣ UInt64.toNat 16 := by
  refine ⟨⟨_,rfl,by decide,?_⟩,by decide,by decide⟩
  rw [Block.bytes,Block.bytes,Set.Ico_disjoint_Ico]
  decide

/-- A request whose alignment every object has is admissible unless its end wraps. -/
theorem admissible_of_small {s : State} {size : UInt64} {align : Alignment}
    (halign : align.size ∣ maxAlign) (hword : blockEnd s.offset size align < 2^64) :
    Admissible buf s (.allocate size align) :=
  .inl ⟨halign.trans buf.aligned,hword⟩

end ArenaAllocator
end Marketlib
