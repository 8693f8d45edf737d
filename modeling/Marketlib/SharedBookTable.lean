import Mathlib.Data.List.Basic
import Mathlib.Tactic.Common
import Marketlib.ConfigField

/-! `SharedBookTable`: the shared-memory segment it opens, maps and unlinks. What the system
answers is an argument of each call; `log` records the calls made. A mapping is named by its
number, since mappings that exist at one time have different addresses. -/

namespace Marketlib

open Binding

/-- What `c_str()` hands to a system call. -/
def cStr (name : Text) : Text := name.takeWhile fun c => c ≠ '\x00'

inductive SysCall
  /-- With `O_CREAT | O_RDWR | O_TRUNC`, or with `O_RDONLY`. -/
  | shmOpen (name : Text) (creating ok : Bool)
  | ftruncate (ok : Bool)
  | mmap (mapping : Option ℕ)
  | closeFd
  | munmap (mapping : ℕ)
  | shmUnlink (name : Text)
  deriving DecidableEq

/-- Which of the system calls of one `create` or `open` succeed. -/
structure Outcomes where
  shmOpen : Bool
  ftruncate : Bool
  mmap : Bool

structure SharedBookTable where
  table : Option ℕ
  name : Text
  ownsUnlink : Bool
  /-- The mappings obtained so far. -/
  mapped : ℕ
  log : List SysCall

namespace SharedBookTable

def fresh : SharedBookTable := ⟨none,[],true,0,[]⟩

def sys (s : SharedBookTable) (call : SysCall) : SharedBookTable :=
  { s with log := s.log ++ [call] }

/-- `mmap(nullptr, …)` -/
def mmap (s : SharedBookTable) (ok : Bool) : Option ℕ × SharedBookTable :=
  if ok then (some s.mapped,{ s.sys (.mmap (some s.mapped)) with mapped := s.mapped+1 })
  else (none,s.sys (.mmap none))

/-- Zeroing the slots in the new mapping is left out. -/
def create (s : SharedBookTable) (shmName : Text) (os : Outcomes) :
    Except Text Unit × SharedBookTable :=
  let s := { s with name := shmName }
  let s := s.sys (.shmOpen (cStr s.name) true os.shmOpen)
  if !os.shmOpen then (.error ("shm_open failed: ".toList ++ s.name),s)
  else
    let s := s.sys (.ftruncate os.ftruncate)
    if !os.ftruncate then (.error ("ftruncate failed: ".toList ++ s.name),s.sys .closeFd)
    else
      let (addr,s) := s.mmap os.mmap
      let s := s.sys .closeFd
      match addr with
      | none => (.error ("mmap failed: ".toList ++ s.name),s)
      | some addr => (.ok (),{ s with table := some addr })

def open' (s : SharedBookTable) (shmName : Text) (os : Outcomes) :
    Except Text Unit × SharedBookTable :=
  let s := { s with name := shmName }
  let s := s.sys (.shmOpen (cStr s.name) false os.shmOpen)
  if !os.shmOpen then (.error ("shm_open failed: ".toList ++ s.name),s)
  else
    let (addr,s) := s.mmap os.mmap
    let s := s.sys .closeFd
    match addr with
    | none => (.error ("mmap failed: ".toList ++ s.name),s)
    | some addr => (.ok (),{ s with table := some addr, ownsUnlink := false })

/-- What the destructor does. -/
def close (s : SharedBookTable) : SharedBookTable :=
  let s :=
    match s.table with
    | some addr => { s.sys (.munmap addr) with table := none }
    | none => s
  if s.ownsUnlink && !s.name.isEmpty then s.sys (.shmUnlink (cStr s.name)) else s

/-- A call of `create` or `open`, with its argument and what the system answers. -/
inductive Call
  | create (name : Text) (os : Outcomes)
  | open' (name : Text) (os : Outcomes)

namespace Call

def run : Call → SharedBookTable → Except Text Unit × SharedBookTable
  | .create name os,s => s.create name os
  | .open' name os,s => s.open' name os

def name : Call → Text
  | .create name _ | .open' name _ => name

/-- Its `mmap` is reached and succeeds. -/
def maps : Call → Bool
  | .create _ os => os.shmOpen && os.ftruncate && os.mmap
  | .open' _ os => os.shmOpen && os.mmap

/-- A successful `open`. -/
def reads : Call → Bool
  | .create .. => false
  | .open' _ os => os.shmOpen && os.mmap

/-- The name a `create` has opened. -/
def created : Call → Option Text
  | .create name os => if os.shmOpen then some (cStr name) else none
  | .open' .. => none

/-- The system calls it makes when `mapped` mappings have been obtained before. -/
def sysCalls (mapped : ℕ) : Call → List SysCall
  | .create name ⟨false,_,_⟩ => [.shmOpen (cStr name) true false]
  | .create name ⟨true,false,_⟩ => [.shmOpen (cStr name) true true,.ftruncate false,.closeFd]
  | .create name ⟨true,true,ok⟩ =>
    [.shmOpen (cStr name) true true,.ftruncate true,.mmap (if ok then some mapped else none),
      .closeFd]
  | .open' name ⟨false,_,_⟩ => [.shmOpen (cStr name) false false]
  | .open' name ⟨true,_,ok⟩ =>
    [.shmOpen (cStr name) false true,.mmap (if ok then some mapped else none),.closeFd]

/-- What a call changes: `create` leaves `owns_unlink_` alone, and neither of the two unmaps
what the object had mapped before. -/
theorem run_state (c : Call) (s : SharedBookTable) : (c.run s).2 =
    { table := if c.maps then some s.mapped else s.table
      name := c.name
      ownsUnlink := s.ownsUnlink && !c.reads
      mapped := s.mapped+c.maps.toNat
      log := s.log ++ c.sysCalls s.mapped } := by
  rcases c with ⟨name,⟨_ | _,_ | _,_ | _⟩⟩ | ⟨name,⟨_ | _,_ | _,_ | _⟩⟩ <;>
    simp [run,SharedBookTable.create,SharedBookTable.open',mmap,sys,maps,reads,sysCalls,Call.name]

/-- The mappings that a call obtains, as its system calls show them. -/
theorem mem_sysCalls_mmap {c : Call} {mapped k : ℕ} :
    .mmap (some k) ∈ c.sysCalls mapped ↔ k = mapped ∧ c.maps = true := by
  rcases c with ⟨name,⟨_ | _,_ | _,_ | _⟩⟩ | ⟨name,⟨_ | _,_ | _,_ | _⟩⟩ <;> simp [sysCalls,maps]

theorem mem_sysCalls_created {c : Call} {mapped : ℕ} {n : Text} :
    .shmOpen n true true ∈ c.sysCalls mapped ↔ c.created = some n := by
  rcases c with ⟨name,⟨_ | _,_ | _,_ | _⟩⟩ | ⟨name,⟨_ | _,_ | _,_ | _⟩⟩ <;>
    simp [sysCalls,created,eq_comm]

/-- Nothing is unmapped or unlinked before the object is destroyed. -/
theorem not_mem_sysCalls (c : Call) (mapped k : ℕ) (n : Text) :
    .munmap k ∉ c.sysCalls mapped ∧ .shmUnlink n ∉ c.sysCalls mapped := by
  rcases c with ⟨name,⟨_ | _,_ | _,_ | _⟩⟩ | ⟨name,⟨_ | _,_ | _,_ | _⟩⟩ <;> simp [sysCalls]

end Call

/-! ### Any calls, and then the destructor -/

def after (calls : List Call) : SharedBookTable :=
  calls.foldl (fun s c => (c.run s).2) fresh

def destroyed (calls : List Call) : SharedBookTable := (after calls).close

/-- What the object and its log are after `calls`. -/
structure Follows (calls : List Call) (s : SharedBookTable) : Prop where
  name : s.name = (calls.getLast?.map Call.name).getD []
  ownsUnlink : s.ownsUnlink = true ↔ ∀ c ∈ calls, c.reads = false
  mapped : s.mapped = calls.countP Call.maps
  table : s.table = if s.mapped = 0 then none else some (s.mapped-1)
  mmaps : ∀ k, .mmap (some k) ∈ s.log ↔ k < s.mapped
  created : ∀ n, .shmOpen n true true ∈ s.log ↔ ∃ c ∈ calls, c.created = some n
  kept : ∀ k n, .munmap k ∉ s.log ∧ .shmUnlink n ∉ s.log

theorem after_follows (calls : List Call) : Follows calls (after calls) := by
  induction calls using List.reverseRecOn with
  | nil => exact ⟨rfl,by simp [after,fresh],rfl,rfl,by simp [after,fresh],by simp [after,fresh],
      by simp [after,fresh]⟩
  | append_singleton calls c ih =>
    have hafter : after (calls ++ [c]) = (c.run (after calls)).2 := by
      simp [after,List.foldl_append]
    rw [hafter,Call.run_state]
    refine ⟨by simp,?_,?_,?_,fun k => ?_,fun n => ?_,fun k n => ?_⟩
    · simp [ih.ownsUnlink,or_imp,forall_and]
    · cases hmaps : c.maps <;> simp [ih.mapped,hmaps]
    · cases hmaps : c.maps
      · simpa using ih.table
      · simp
    · rw [List.mem_append,ih.mmaps,Call.mem_sysCalls_mmap]
      cases hmaps : c.maps
      · simp
      · simp only [and_true,Bool.toNat_true,Nat.lt_succ_iff_lt_or_eq]
    · rw [List.mem_append,ih.created,Call.mem_sysCalls_created]
      simp [or_and_right,exists_or]
    · obtain ⟨hunmap,hunlink⟩ := ih.kept k n
      obtain ⟨hunmap',hunlink'⟩ := c.not_mem_sysCalls (after calls).mapped k n
      simp [hunmap,hunlink,hunmap',hunlink']

/-- What the destructor adds to the log. -/
def closing (s : SharedBookTable) : List SysCall :=
  (s.table.map SysCall.munmap).toList ++
    if s.ownsUnlink && !s.name.isEmpty then [.shmUnlink (cStr s.name)] else []

theorem close_log (s : SharedBookTable) : s.close.log = s.log ++ s.closing := by
  obtain ⟨table,name,ownsUnlink,mapped,log⟩ := s
  cases table <;> cases hunlink : ownsUnlink && !name.isEmpty <;>
    simp [close,closing,sys,hunlink]

/-- Every name that was unlinked is one that a `create` of this object had opened. -/
def UnlinksCreated (s : SharedBookTable) : Prop :=
  ∀ n, .shmUnlink n ∈ s.log → .shmOpen n true true ∈ s.log

/-- Every mapping that was obtained was unmapped once. -/
def UnmapsOnce (s : SharedBookTable) : Prop :=
  ∀ k, .mmap (some k) ∈ s.log → s.log.count (.munmap k) = 1

theorem mem_closing_shmUnlink {s : SharedBookTable} {n : Text} :
    .shmUnlink n ∈ s.closing ↔ s.ownsUnlink = true ∧ s.name ≠ [] ∧ cStr s.name = n := by
  obtain ⟨table,name,ownsUnlink,mapped,log⟩ := s
  cases table <;> cases ownsUnlink <;> cases name <;> simp [closing,eq_comm]

theorem not_mem_closing {s : SharedBookTable} {m : Option ℕ} {n : Text} :
    .mmap m ∉ s.closing ∧ .shmOpen n true true ∉ s.closing := by
  obtain ⟨table,name,ownsUnlink,mapped,log⟩ := s
  cases table <;> cases hunlink : ownsUnlink && !name.isEmpty <;> simp [closing,hunlink]

theorem count_closing (s : SharedBookTable) (k : ℕ) :
    s.closing.count (.munmap k) = if s.table = some k then 1 else 0 := by
  obtain ⟨table,name,ownsUnlink,mapped,log⟩ := s
  cases table <;> cases hunlink : ownsUnlink && !name.isEmpty <;>
    simp [closing,hunlink,List.count_cons]

/-- The name of the last call is not unlinked by mistake: an `open` has succeeded, or the name
is empty, or a `create` has opened it. -/
def LastIsOwn (calls : List Call) : Prop :=
  (∃ c ∈ calls, c.reads = true) ∨ ∀ last ∈ calls.getLast?, last.name = [] ∨
    ∃ c ∈ calls, c.created = some (cStr last.name)

theorem unlinksCreated_iff (calls : List Call) :
    UnlinksCreated (destroyed calls) ↔ LastIsOwn calls := by
  have hfollows := after_follows calls
  have hunlink (n : Text) : .shmUnlink n ∈ (destroyed calls).log ↔
      (∀ c ∈ calls, c.reads = false) ∧ (after calls).name ≠ [] ∧ cStr (after calls).name = n := by
    rw [destroyed,close_log,List.mem_append,or_iff_right (hfollows.kept 0 n).2,
      mem_closing_shmUnlink,hfollows.ownsUnlink]
  have hopen (n : Text) : .shmOpen n true true ∈ (destroyed calls).log ↔
      ∃ c ∈ calls, c.created = some n := by
    rw [destroyed,close_log,List.mem_append,or_iff_left (not_mem_closing (m := none)).2,
      hfollows.created]
  have hname : (∀ last ∈ calls.getLast?, last.name = [] ∨
      ∃ c ∈ calls, c.created = some (cStr last.name)) ↔
      ((after calls).name ≠ [] → ∃ c ∈ calls, c.created = some (cStr (after calls).name)) := by
    rw [hfollows.name]
    cases hlast : calls.getLast? with
    | none => simp
    | some last => simp [or_iff_not_imp_left]
  simp only [UnlinksCreated,hunlink,hopen]
  rw [LastIsOwn,hname]
  constructor
  · intro h
    by_cases hreads : ∃ c ∈ calls, c.reads = true
    · exact .inl hreads
    · refine .inr fun hne => h _ ⟨fun c hc => ?_,hne,rfl⟩
      exact Bool.eq_false_iff.mpr fun hc' => hreads ⟨c,hc,hc'⟩
  · rintro (⟨c,hc,hreads⟩ | hown) n ⟨hnone,hne,rfl⟩
    · exact absurd hreads (by simp [hnone c hc])
    · exact hown hne

theorem unmapsOnce_iff (calls : List Call) :
    UnmapsOnce (destroyed calls) ↔ calls.countP Call.maps ≤ 1 := by
  have hfollows := after_follows calls
  have hmmap (k : ℕ) : .mmap (some k) ∈ (destroyed calls).log ↔ k < (after calls).mapped := by
    rw [destroyed,close_log,List.mem_append,or_iff_left (not_mem_closing (n := [])).1,
      hfollows.mmaps]
  have hcount (k : ℕ) : (destroyed calls).log.count (.munmap k) =
      if (after calls).table = some k then 1 else 0 := by
    rw [destroyed,close_log,List.count_append,count_closing,
      List.count_eq_zero.mpr (hfollows.kept k []).1,Nat.zero_add]
  simp only [UnmapsOnce,hmmap,hcount,hfollows.table,← hfollows.mapped]
  constructor
  · intro h
    by_contra hmany
    have hfirst := h 0 (by omega)
    have hpos : (after calls).mapped ≠ 0 := by omega
    rw [if_neg hpos,if_neg (by simp only [Option.some.injEq]; omega)] at hfirst
    exact absurd hfirst Nat.zero_ne_one
  · intro hle k hk
    have hone : (after calls).mapped = 1 := by omega
    simp [hone]
    omega

/-- The destructor unlinks only what this object created, and unmaps each mapping once, if and
only if the last call's name is its own and at most one call has mapped the segment. -/
theorem destroyed_iff (calls : List Call) :
    UnlinksCreated (destroyed calls) ∧ UnmapsOnce (destroyed calls) ↔
      LastIsOwn calls ∧ calls.countP Call.maps ≤ 1 :=
  and_congr (unlinksCreated_iff calls) (unmapsOnce_iff calls)

/-- A reader whose `open` fails, and a writer that creates the segment twice. -/
theorem failed_reader_unlinks :
    (destroyed [ Call.open' "/books".toList ⟨false,false,false⟩]).log =
      [.shmOpen "/books".toList false false,.shmUnlink "/books".toList] ∧
    ¬UnlinksCreated (destroyed [ Call.open' "/books".toList ⟨false,false,false⟩]) ∧
    ¬UnmapsOnce (destroyed [.create "/books".toList ⟨true,true,true⟩,
      .create "/books".toList ⟨true,true,true⟩]) := by
  refine ⟨by decide,fun h => ?_,fun h => ?_⟩
  · exact absurd (h "/books".toList (by decide)) (by decide)
  · exact absurd (h 0 (by decide)) (by decide)

end SharedBookTable
end Marketlib
