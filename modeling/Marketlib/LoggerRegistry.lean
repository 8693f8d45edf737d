import Mathlib.Data.List.Basic
import Mathlib.Data.UInt
import Mathlib.Logic.Function.Basic
import Mathlib.Tactic.Common
import Marketlib.ConfigField
import Marketlib.Transition

/-! The registry of loggers. Each of the two locked sections of `get` is one step; the call for
the parent goes on between them. A reference to a logger is its position in the order of
creation. -/

namespace Marketlib

open Binding

namespace Logging

abbrev Level := UInt8

def Level.info : Level := 2

def Level.inherit : Level := 0xFF

structure Logger where
  name : Text
  level : Level
  parent : Option ℕ

/-- `Logger::Logger`. -/
def Logger.make (name : Text) (parent : Option ℕ) : Logger where
  name := name
  level := if parent = none then .info else .inherit
  parent := parent

/-- `name.substr(0, name.rfind('.'))`, if there is a dot. -/
def parentName (name : Text) : Option Text :=
  (name.reverse.dropWhile fun c => c ≠ '.').tail?.map List.reverse

/-- `registry()`, and the loggers it owns. -/
structure Registry where
  table : Text → Option ℕ
  loggers : List Logger

namespace Registry

def empty : Registry := ⟨fun _ => none,[]⟩

/-- The end of `get`: a new logger. -/
def create (reg : Registry) (name : Text) (parent : Option ℕ) : Registry where
  table := Function.update reg.table name (some reg.loggers.length)
  loggers := reg.loggers ++ [.make name parent]

/-- `set_level` on the logger at `i`. -/
def setLevel (reg : Registry) (i : ℕ) (lg : Logger) (l : Level) : Registry :=
  { reg with loggers := reg.loggers.set i { lg with level := l } }

end Registry

/-- Where a call of `get` is, outside its locked sections. -/
inductive Stage
  | find (name : Text)
  | insert (name : Text) (parent : Option ℕ)

structure State (ι : Type) where
  reg : Registry
  /-- The innermost call of `get`, and the names of the calls that wait for it. -/
  threads : ι → Option (Stage × List Text)
  /-- What the calls of `get` returned. -/
  returned : List (Text × ℕ)
  /-- The calls of `set_level`, the last one first. -/
  sets : List (Text × Level)

inductive Action (ι : Type)
  | get (t : ι) (name : Text)
  | find (t : ι)
  | insert (t : ι)
  | setLevel (i : ℕ) (l : Level)

namespace State

variable {ι : Type} [DecidableEq ι]

def start : State ι := ⟨.empty,fun _ => none,[],[]⟩

def setThread (s : State ι) (t : ι) (r : Option (Stage × List Text)) : State ι :=
  { s with threads := Function.update s.threads t r }

/-- `get(name)` returns `i` to its caller, or to the call that waits for it. -/
def ret (s : State ι) (t : ι) (name : Text) (i : ℕ) : (waiting : List Text) → State ι
  | [] => { s.setThread t none with returned := (name,i) :: s.returned }
  | n :: waiting => s.setThread t (some (.insert n (some i),waiting))

/-- The first locked section, and the way on to the parent. -/
def find (s : State ι) (t : ι) (name : Text) (waiting : List Text) : State ι :=
  match s.reg.table name with
  | some i => s.ret t name i waiting
  | none =>
    match parentName name with
    | none => s.setThread t (some (.insert name none,waiting))
    | some p => s.setThread t (some (.find p,name :: waiting))

/-- The second locked section. -/
def insert (s : State ι) (t : ι) (name : Text) (parent : Option ℕ) (waiting : List Text) :
    State ι :=
  match s.reg.table name with
  | some i => s.ret t name i waiting
  | none => ret { s with reg := s.reg.create name parent } t name s.reg.loggers.length waiting

def step (s : State ι) : Action ι → Option (State ι)
  | .get t name =>
    match s.threads t with
    | none => some (s.setThread t (some (.find name,[])))
    | some _ => none
  | .find t =>
    match s.threads t with
    | some (.find name,waiting) => some (s.find t name waiting)
    | _ => none
  | .insert t =>
    match s.threads t with
    | some (.insert name parent,waiting) => some (s.insert t name parent waiting)
    | _ => none
  | .setLevel i l => (s.reg.loggers[i]?).map fun lg =>
      { s with reg := s.reg.setLevel i lg l, sets := (lg.name,l) :: s.sets }

end State

/-! ### Names and levels -/

theorem parentName_append {p rest : Text} (h : '.' ∉ rest) :
    parentName (p ++ '.' :: rest) = some p := by
  have hskip : ∀ c ∈ rest.reverse, decide (c ≠ '.') = true := fun c hc =>
    decide_eq_true fun heq => h (heq ▸ List.mem_reverse.mp hc)
  rw [parentName,List.reverse_append,List.reverse_cons,List.append_assoc,
    List.dropWhile_append_of_pos hskip]
  simp

theorem parentName_eq_none {name : Text} (h : '.' ∉ name) : parentName name = none := by
  have hskip : ∀ c ∈ name.reverse, decide (c ≠ '.') = true := fun c hc =>
    decide_eq_true fun heq => h (heq ▸ List.mem_reverse.mp hc)
  rw [parentName,List.dropWhile_eq_nil_iff.mpr hskip]
  rfl

theorem exists_last_dot {name : Text} (h : '.' ∈ name) :
    ∃ p rest, name = p ++ '.' :: rest ∧ '.' ∉ rest := by
  obtain ⟨back,front,heq,hnot⟩ := List.eq_append_cons_of_mem (List.mem_reverse.mpr h)
  refine ⟨front.reverse,back.reverse,?_,fun hmem => hnot (List.mem_reverse.mp hmem)⟩
  rw [← List.reverse_reverse name,heq,List.reverse_append,List.reverse_cons,List.append_assoc]
  rfl

/-- The value last set for a logger, or what it starts with. -/
def lastLevel (sets : List (Text × Level)) (name : Text) : Level :=
  (sets.lookup name).getD (if '.' ∈ name then .inherit else .info)

/-- The logger at `parent`, or null, is the one that a logger called `name` inherits from. -/
def Registry.ParentOf (reg : Registry) (name : Text) (parent : Option ℕ) : Prop :=
  parentName name = none ∧ parent = none ∨
    ∃ p i, parentName name = some p ∧ parent = some i ∧ reg.table p = some i

/-- What holds of the logger at `i`. -/
structure Registry.Entry (reg : Registry) (sets : List (Text × Level)) (i : ℕ) (lg : Logger) :
    Prop where
  listed : reg.table lg.name = some i
  parent : reg.ParentOf lg.name lg.parent
  older : ∀ j, lg.parent = some j → j < i
  level : lg.level = lastLevel sets lg.name

structure Registry.Sound (reg : Registry) (sets : List (Text × Level)) : Prop where
  named : ∀ name i, reg.table name = some i → ∃ lg : Logger, reg.loggers[i]? = some lg ∧
    lg.name = name
  entry : ∀ i lg, reg.loggers[i]? = some lg → reg.Entry sets i lg
  unset : ∀ name, reg.table name = none → sets.lookup name = none

theorem Registry.create_table (reg : Registry) (name : Text) (parent : Option ℕ) (n : Text) :
    (reg.create name parent).table n =
      if n = name then some reg.loggers.length else reg.table n :=
  Function.update_apply ..

/-- No name is ever given to another logger. -/
def Registry.Extends (reg reg' : Registry) : Prop :=
  ∀ name i, reg.table name = some i → reg'.table name = some i

theorem Registry.ParentOf.extends {reg reg' : Registry} {name : Text} {parent : Option ℕ}
    (h : reg.ParentOf name parent) (hext : reg.Extends reg') : reg'.ParentOf name parent := by
  rcases h with h | ⟨p,i,hp,hparent,htable⟩
  · exact .inl h
  · exact .inr ⟨p,i,hp,hparent,hext p i htable⟩

theorem Registry.empty_sound : Registry.empty.Sound [] :=
  ⟨nofun,nofun,fun _ _ => rfl⟩

theorem Registry.create_extends {reg : Registry} {name : Text} (hnew : reg.table name = none)
    (parent : Option ℕ) : reg.Extends (reg.create name parent) := by
  intro n i hi
  rw [create_table,if_neg fun heq => by rw [heq,hnew] at hi; cases hi]
  exact hi

theorem Registry.Sound.lt {reg : Registry} {sets : List (Text × Level)} (h : reg.Sound sets)
    {name : Text} {i : ℕ} (hi : reg.table name = some i) : i < reg.loggers.length := by
  obtain ⟨lg,hlg,-⟩ := h.named name i hi
  exact (List.getElem?_eq_some_iff.mp hlg).1

theorem Registry.ParentOf.none_iff {reg : Registry} {name : Text} {parent : Option ℕ}
    (h : reg.ParentOf name parent) : parentName name = none ↔ parent = none := by
  rcases h with ⟨hname,hparent⟩ | ⟨p,i,hname,hparent,-⟩
  · exact iff_of_true hname hparent
  · rw [hname,hparent]
    exact iff_of_false nofun nofun

/-- The level that the constructor gives. -/
theorem Registry.ParentOf.make_level {reg : Registry} {name : Text} {parent : Option ℕ}
    (h : reg.ParentOf name parent) {sets : List (Text × Level)}
    (hunset : sets.lookup name = none) : (Logger.make name parent).level = lastLevel sets name := by
  rw [lastLevel,hunset,Option.getD_none,Logger.make]
  by_cases hdot : '.' ∈ name
  · rw [if_pos hdot,if_neg]
    obtain ⟨p,rest,rfl,hrest⟩ := exists_last_dot hdot
    rw [← h.none_iff,parentName_append hrest]
    nofun
  · rw [if_neg hdot,if_pos (h.none_iff.mp (parentName_eq_none hdot))]

theorem Registry.Sound.create {reg : Registry} {sets : List (Text × Level)} (h : reg.Sound sets)
    {name : Text} {parent : Option ℕ} (hnew : reg.table name = none)
    (hparent : reg.ParentOf name parent) : (reg.create name parent).Sound sets := by
  have hext := create_extends hnew parent
  constructor
  · intro n i hi
    by_cases hn : n = name
    · subst hn
      rw [create_table,if_pos rfl] at hi
      cases hi
      exact ⟨.make n parent,by rw [Registry.create,List.getElem?_concat_length],rfl⟩
    · rw [create_table,if_neg hn] at hi
      obtain ⟨lg,hlg,hname⟩ := h.named n i hi
      refine ⟨lg,?_,hname⟩
      rw [Registry.create,List.getElem?_append_left (h.lt hi),hlg]
  · intro i lg hlg
    rw [Registry.create,List.getElem?_append] at hlg
    split_ifs at hlg with hi
    · have hentry := h.entry i lg hlg
      exact ⟨hext _ _ hentry.listed,hentry.parent.extends hext,hentry.older,hentry.level⟩
    · obtain ⟨hlast,rfl⟩ : i-reg.loggers.length = 0 ∧ Logger.make name parent = lg := by
        simpa [List.getElem?_singleton] using hlg
      obtain rfl : i = reg.loggers.length := by omega
      refine ⟨Function.update_self ..,hparent.extends hext,fun j hj => ?_,
        hparent.make_level (h.unset name hnew)⟩
      rcases hparent with ⟨-,hnull⟩ | ⟨p,k,-,hk,htable⟩
      · rw [Logger.make,hnull] at hj
        cases hj
      · rw [Logger.make,hk] at hj
        cases hj
        exact h.lt htable
  · intro n hn
    by_cases heq : n = name
    · exact heq ▸ h.unset name hnew
    · rw [create_table,if_neg heq] at hn
      exact h.unset n hn

theorem lastLevel_cons (sets : List (Text × Level)) (name n : Text) (l : Level) :
    lastLevel ((name,l) :: sets) n = if n = name then l else lastLevel sets n := by
  rw [lastLevel,lastLevel,List.lookup_cons]
  by_cases h : n = name
  · rw [if_pos h,beq_iff_eq.mpr h]
    rfl
  · rw [if_neg h,beq_eq_false_iff_ne.mpr h]

theorem Registry.Sound.setLevel {reg : Registry} {sets : List (Text × Level)}
    (h : reg.Sound sets) {i : ℕ} {lg : Logger} (hlg : reg.loggers[i]? = some lg) (l : Level) :
    (reg.setLevel i lg l).Sound ((lg.name,l) :: sets) := by
  have hi := (List.getElem?_eq_some_iff.mp hlg).1
  have hlisted := (h.entry i lg hlg).listed
  constructor
  · intro n j hj
    obtain ⟨lg',hlg',hname⟩ := h.named n j hj
    rw [Registry.setLevel,List.getElem?_set]
    split_ifs with hij
    · subst hij
      rw [hlg] at hlg'
      cases hlg'
      exact ⟨_,rfl,hname⟩
    · exact ⟨lg',hlg',hname⟩
  · intro j lg' hlg'
    rw [Registry.setLevel,List.getElem?_set] at hlg'
    split_ifs at hlg' with hij
    · cases hlg'
      subst hij
      have hentry := h.entry i lg hlg
      exact ⟨hentry.listed,hentry.parent,hentry.older,by rw [lastLevel_cons,if_pos rfl]⟩
    · have hentry := h.entry j lg' hlg'
      refine ⟨hentry.listed,hentry.parent,hentry.older,?_⟩
      -- another logger has another name
      rw [lastLevel_cons,if_neg fun hname => hij ?_,hentry.level]
      have heq := hentry.listed
      rw [hname,hlisted] at heq
      exact Option.some.inj heq
  · intro n hn
    have hne : n ≠ lg.name := fun heq => by
      rw [heq,Registry.setLevel,hlisted] at hn
      cases hn
    rw [List.lookup_cons,beq_eq_false_iff_ne.mpr hne]
    exact h.unset n hn

/-! ### The level that a logger obeys -/

/-- Every name that waits is the child of the one before. -/
def Waits : Text → List Text → Prop
  | _,[] => True
  | name,n :: waiting => parentName n = some name ∧ Waits n waiting

def Stage.Sound (reg : Registry) (waiting : List Text) : Stage → Prop
  | .find name => Waits name waiting
  | .insert name parent => reg.ParentOf name parent ∧ Waits name waiting

theorem Stage.Sound.extends {reg reg' : Registry} {waiting : List Text} {stage : Stage}
    (h : stage.Sound reg waiting) (hext : reg.Extends reg') : stage.Sound reg' waiting := by
  cases stage with
  | find name => exact h
  | insert name parent => exact ⟨h.1.extends hext,h.2⟩

namespace State

variable {ι : Type} [DecidableEq ι]

structure Sound (s : State ι) : Prop where
  reg : s.reg.Sound s.sets
  threads : ∀ t stage waiting, s.threads t = some (stage,waiting) → stage.Sound s.reg waiting
  returned : ∀ name i, (name,i) ∈ s.returned → s.reg.table name = some i

theorem setThread_threads (s : State ι) (t : ι) (r : Option (Stage × List Text)) (u : ι) :
    (s.setThread t r).threads u = if u = t then r else s.threads u :=
  Function.update_apply ..

theorem Sound.setThread {s : State ι} (h : Sound s) (t : ι) {r : Option (Stage × List Text)}
    (hr : ∀ stage waiting, r = some (stage,waiting) → stage.Sound s.reg waiting) :
    Sound (s.setThread t r) := by
  refine ⟨h.reg,fun u stage waiting hu => ?_,h.returned⟩
  rw [setThread_threads] at hu
  split_ifs at hu
  · exact hr stage waiting hu
  · exact h.threads u stage waiting hu

theorem Sound.enter {s : State ι} (h : Sound s) (t : ι) {stage : Stage} {waiting : List Text}
    (hstage : stage.Sound s.reg waiting) : Sound (s.setThread t (some (stage,waiting))) := by
  refine h.setThread t ?_
  rintro _ _ ⟨⟩
  exact hstage

theorem Sound.ret {s : State ι} (h : Sound s) (t : ι) {name : Text} {i : ℕ}
    (hi : s.reg.table name = some i) {waiting : List Text} (hwaits : Waits name waiting) :
    Sound (s.ret t name i waiting) := by
  cases waiting with
  | nil =>
    have hidle := h.setThread t (r := none) nofun
    refine ⟨hidle.reg,hidle.threads,fun n j hj => ?_⟩
    rcases List.mem_cons.mp hj with heq | hj
    · cases heq
      exact hi
    · exact h.returned n j hj
  | cons n waiting => exact h.enter t ⟨.inr ⟨name,i,hwaits.1,rfl,hi⟩,hwaits.2⟩

theorem Sound.find {s : State ι} (h : Sound s) (t : ι) {name : Text} {waiting : List Text}
    (hwaits : Waits name waiting) : Sound (s.find t name waiting) := by
  rw [State.find]
  split
  next i hi => exact h.ret t hi hwaits
  next =>
    split
    next hroot => exact h.enter t ⟨.inl ⟨hroot,rfl⟩,hwaits⟩
    next p hp => exact h.enter t ⟨hp,hwaits⟩

theorem Sound.insert {s : State ι} (h : Sound s) (t : ι) {name : Text} {parent : Option ℕ}
    {waiting : List Text} (hparent : s.reg.ParentOf name parent) (hwaits : Waits name waiting) :
    Sound (s.insert t name parent waiting) := by
  rw [State.insert]
  split
  next i hi => exact h.ret t hi hwaits
  next hnew =>
    have hext := Registry.create_extends hnew parent
    have hsound : Sound { s with reg := s.reg.create name parent } :=
      ⟨h.reg.create hnew hparent,fun u stage w hu => (h.threads u stage w hu).extends hext,
        fun n i hi => hext n i (h.returned n i hi)⟩
    refine hsound.ret t ?_ hwaits
    exact (Registry.create_table ..).trans (if_pos rfl)

theorem Sound.step {s s' : State ι} (h : Sound s) {a : Action ι} (hstep : s.step a = some s') :
    Sound s' := by
  cases a with
  | get t name =>
    rw [State.step] at hstep
    split at hstep
    · cases hstep
      exact h.enter t trivial
    · cases hstep
  | find t =>
    rw [State.step] at hstep
    split at hstep
    next name waiting ht =>
      cases hstep
      exact h.find t (h.threads t _ _ ht)
    · cases hstep
  | insert t =>
    rw [State.step] at hstep
    split at hstep
    next name parent waiting ht =>
      cases hstep
      have hstage := h.threads t _ _ ht
      exact h.insert t hstage.1 hstage.2
    · cases hstep
  | setLevel i l =>
    obtain ⟨lg,hlg,rfl⟩ := Option.map_eq_some_iff.mp hstep
    exact ⟨h.reg.setLevel hlg l,h.threads,h.returned⟩

omit [DecidableEq ι] in
theorem start_sound : Sound (start : State ι) where
  reg := Registry.empty_sound
  threads _ _ _ ht := by cases ht
  returned _ _ hi := by cases hi

theorem reachable_sound {s : State ι} (h : Transition.Reachable State.step start s) : Sound s :=
  h.invariant start_sound fun _ _ _ hs _ hstep => hs.step hstep

end State
end Logging
end Marketlib
