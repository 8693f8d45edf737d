import Mathlib.Data.Char
import Mathlib.Data.List.Lex
import Mathlib.Data.List.Pairwise
import Marketlib.ConfigField

/-! Parsed TOML. A table is an ordered map; paths are followed key by key. -/

namespace Marketlib
namespace Toml

open Binding

/-- A node; `φ` are the floats, `δ` the dates and times. -/
inductive Node (φ δ : Type)
  | string (s : Text)
  | integer (i : Int64)
  | float (x : φ)
  | boolean (b : Bool)
  | dateTime (d : δ)
  | array (elems : List (Node φ δ))
  | table (entries : List (Text × Node φ δ))

/-- The entries of a table, in iteration order. -/
abbrev Table (φ δ : Type) := List (Text × Node φ δ)

variable {φ δ : Type}

def get (t : Table φ δ) (key : Text) : Option (Node φ δ) := t.lookup key

/-- `insert_or_assign`. -/
def insertOrAssign (key : Text) (n : Node φ δ) : Table φ δ → Table φ δ
  | [] => [(key,n)]
  | (k,m) :: t =>
    if k = key then (k,n) :: t
    else if key < k then (key,n) :: (k,m) :: t
    else (k,m) :: insertOrAssign key n t

def erase (t : Table φ δ) (key : Text) : Table φ δ := t.filter fun e => e.1 ≠ key

/-- `as_table`. -/
def Node.asTable : Node φ δ → Option (Table φ δ)
  | .table t => some t
  | _ => none

/-- The node of a key, where it is a table. -/
def subTable (t : Table φ δ) (key : Text) : Option (Table φ δ) := (get t key).bind Node.asTable

/-- The node at the end of a path of keys. -/
def Node.at : Node φ δ → List Text → Option (Node φ δ)
  | n,[] => some n
  | .table t,key :: keys => (get t key).bind fun n => n.at keys
  | _,_ :: _ => none

/-- Keys are in order in a table and in the tables under it. -/
inductive Ordered : Table φ δ → Prop
  | intro {t} (keys : (t.map Prod.fst).Pairwise (· < ·))
      (below : ∀ key sub, (key,Node.table sub) ∈ t → Ordered sub) : Ordered t

/-- What the parser returns. -/
structure Document (φ δ : Type) where
  root : Table φ δ
  ordered : Ordered root

@[simp] theorem get_nil (key : Text) : get ([] : Table φ δ) key = none := rfl

theorem get_cons (k : Text) (n : Node φ δ) (t : Table φ δ) (key : Text) :
    get ((k,n) :: t) key = if key = k then some n else get t key := by
  rw [get,List.lookup_cons]
  by_cases h : key = k
  · simp [h]
  · simp only [beq_eq_false_iff_ne.mpr h,if_neg h]
    rfl

theorem get_insertOrAssign (key : Text) (n : Node φ δ) (t : Table φ δ) (key' : Text) :
    get (insertOrAssign key n t) key' = if key' = key then some n else get t key' := by
  induction t with
  | nil => rw [insertOrAssign,get_cons]
  | cons e t ih =>
    obtain ⟨k,m⟩ := e
    rw [insertOrAssign]
    split_ifs with hk hlt <;> simp only [get_cons,ih] <;> split_ifs <;> simp_all

theorem get_erase (t : Table φ δ) (key key' : Text) :
    get (erase t key) key' = if key' = key then none else get t key' := by
  induction t with
  | nil => simp [erase]
  | cons e t ih =>
    obtain ⟨k,m⟩ := e
    rw [erase] at ih ⊢
    rw [List.filter_cons]
    split_ifs with hk <;> simp only [get_cons,ih] <;> split_ifs <;> simp_all

theorem subTable_eq_some {t sub : Table φ δ} {key : Text} :
    subTable t key = some sub ↔ get t key = some (.table sub) := by
  rw [subTable,Option.bind_eq_some_iff]
  constructor
  · rintro ⟨n,hget,hn⟩
    cases n with
    | table t' =>
      cases hn
      exact hget
    | _ => cases hn
  · exact fun hget => ⟨_,hget,rfl⟩

theorem mem_of_get {t : Table φ δ} {key : Text} {n : Node φ δ} (h : get t key = some n) :
    (key,n) ∈ t := by
  induction t with
  | nil => cases h
  | cons e t ih =>
    obtain ⟨k,m⟩ := e
    rw [get_cons] at h
    split_ifs at h with hk
    · cases h
      rw [hk]
      exact List.mem_cons_self
    · exact List.mem_cons_of_mem _ (ih h)

/-- An entry is found under its key where keys are distinct. -/
theorem get_of_mem {t : Table φ δ} (hkeys : (t.map Prod.fst).Pairwise (· < ·)) {key : Text}
    {n : Node φ δ} (h : (key,n) ∈ t) : get t key = some n := by
  induction t with
  | nil => cases h
  | cons e t ih =>
    obtain ⟨hfirst,hkeys⟩ := List.pairwise_cons.mp hkeys
    rw [get_cons]
    rcases List.mem_cons.mp h with rfl | h
    · rw [if_pos rfl]
    · have hlt := hfirst key (List.mem_map_of_mem (f := Prod.fst) h)
      rw [if_neg hlt.ne',ih hkeys h]

@[simp] theorem at_nil (n : Node φ δ) : n.at [] = some n := by cases n <;> rfl

theorem at_cons (t : Table φ δ) (key : Text) (keys : List Text) :
    (Node.table t).at (key :: keys) = (get t key).bind fun n => n.at keys := rfl

theorem at_append (n : Node φ δ) (p q : List Text) :
    n.at (p ++ q) = (n.at p).bind fun m => m.at q := by
  induction p generalizing n with
  | nil => simp
  | cons key p ih =>
    cases n with
    | table t =>
      rw [List.cons_append,at_cons,at_cons,Option.bind_assoc]
      exact congrArg _ (funext ih)
    | _ => rfl

/-- Nothing is under a node that is no table. -/
theorem at_of_not_table {n : Node φ δ} (h : ∀ t, n ≠ .table t) {q : List Text} (hq : q ≠ []) :
    n.at q = none := by
  cases q with
  | nil => exact absurd rfl hq
  | cons key q =>
    cases n with
    | table t => exact absurd rfl (h t)
    | _ => rfl

theorem table_of_at {n : Node φ δ} {q : List Text} {sub : Table φ δ}
    (h : n.at q = some (.table sub)) : ∃ t, n = .table t := by
  cases n with
  | table t => exact ⟨t,rfl⟩
  | _ => cases q <;> cases h

/-- Put a node at the end of a path that exists. -/
def assignAt (n : Node φ δ) : Table φ δ → List Text → Option (Table φ δ)
  | _,[] => none
  | t,[key] => (get t key).map fun _ => insertOrAssign key n t
  | t,key :: keys => (subTable t key).bind fun sub =>
    (assignAt n sub keys).map fun sub => insertOrAssign key (.table sub) t

section Assign

variable {n : Node φ δ} {t t' : Table φ δ} {p : List Text}

theorem assignAt_single (n : Node φ δ) (t : Table φ δ) (key : Text) :
    assignAt n t [key] = (get t key).map fun _ => insertOrAssign key n t := rfl

/-- Descending into a table. -/
theorem assignAt_cons {key : Text} (hp : p ≠ []) (h : assignAt n t (key :: p) = some t') :
    ∃ sub sub', get t key = some (.table sub) ∧ assignAt n sub p = some sub' ∧
      t' = insertOrAssign key (.table sub') t := by
  cases p with
  | nil => exact absurd rfl hp
  | cons k p =>
    rw [assignAt] at h
    · obtain ⟨sub,hsub,hassign⟩ := Option.bind_eq_some_iff.mp h
      obtain ⟨sub',hsub',rfl⟩ := Option.map_eq_some_iff.mp hassign
      exact ⟨sub,sub',subTable_eq_some.mp hsub,hsub',rfl⟩
    · exact List.cons_ne_nil k p

theorem assignAt_isSome (n : Node φ δ) (t : Table φ δ) (hp : p ≠ []) :
    (assignAt n t p).isSome = ((Node.table t).at p).isSome := by
  induction p generalizing t with
  | nil => exact absurd rfl hp
  | cons key p ih =>
    cases p with
    | nil =>
      rw [assignAt_single,at_cons,Option.isSome_map]
      cases get t key <;> simp
    | cons k p =>
      rw [at_cons,assignAt,subTable]
      · cases hget : get t key with
        | none => rfl
        | some m =>
          cases m with
          | table sub => exact Option.isSome_map.trans (ih sub (List.cons_ne_nil k p))
          | _ => rfl
      · exact List.cons_ne_nil k p

/-- At the path and below it stands what was assigned. -/
theorem at_assignAt (h : assignAt n t p = some t') (q : List Text) :
    (Node.table t').at (p ++ q) = n.at q := by
  induction p generalizing t t' with
  | nil => cases h
  | cons key p ih =>
    cases p with
    | nil =>
      obtain ⟨_,-,rfl⟩ := Option.map_eq_some_iff.mp h
      rw [List.cons_append,at_cons,get_insertOrAssign,if_pos rfl]
      rfl
    | cons k p =>
      obtain ⟨sub,sub',-,hsub',rfl⟩ := assignAt_cons (List.cons_ne_nil k p) h
      rw [List.cons_append,at_cons,get_insertOrAssign,if_pos rfl]
      exact ih hsub'

/-- Paths that part from it are as before. -/
theorem at_assignAt_other (h : assignAt n t p = some t') {q : List Text} (hpq : ¬p <+: q)
    (hqp : ¬q <+: p) : (Node.table t').at q = (Node.table t).at q := by
  induction p generalizing t t' q with
  | nil => cases h
  | cons key p ih =>
    cases q with
    | nil => exact absurd List.nil_prefix hqp
    | cons key' q =>
      rw [at_cons,at_cons]
      by_cases hkey : key' = key
      · subst hkey
        rw [List.cons_prefix_cons] at hpq hqp
        have hp : p ≠ [] := by
          rintro rfl
          exact hpq ⟨rfl,List.nil_prefix⟩
        obtain ⟨sub,sub',hget,hsub',rfl⟩ := assignAt_cons hp h
        rw [get_insertOrAssign,if_pos rfl,hget]
        exact ih hsub' (fun hle => hpq ⟨rfl,hle⟩) fun hle => hqp ⟨rfl,hle⟩
      · have hget : get t' key' = get t key' := by
          by_cases hp : p = []
          · subst hp
            obtain ⟨_,-,rfl⟩ := Option.map_eq_some_iff.mp h
            rw [get_insertOrAssign,if_neg hkey]
          · obtain ⟨_,_,-,-,rfl⟩ := assignAt_cons hp h
            rw [get_insertOrAssign,if_neg hkey]
        rw [hget]

theorem at_erase (t : Table φ δ) {key key' : Text} (h : key' ≠ key) (q : List Text) :
    (Node.table (erase t key)).at (key' :: q) = (Node.table t).at (key' :: q) := by
  rw [at_cons,at_cons,get_erase,if_neg h]

/-! ### Order is kept -/

theorem mem_insertOrAssign {key k : Text} {m : Node φ δ} (h : (k,m) ∈ insertOrAssign key n t) :
    k = key ∧ m = n ∨ (k,m) ∈ t := by
  induction t with
  | nil =>
    rw [insertOrAssign,List.mem_singleton] at h
    cases h
    exact .inl ⟨rfl,rfl⟩
  | cons e t ih =>
    obtain ⟨k',m'⟩ := e
    rw [insertOrAssign] at h
    split_ifs at h with hk hlt
    · rcases List.mem_cons.mp h with h | h
      · cases h
        exact .inl ⟨hk,rfl⟩
      · exact .inr (List.mem_cons_of_mem _ h)
    · rcases List.mem_cons.mp h with h | h
      · cases h
        exact .inl ⟨rfl,rfl⟩
      · exact .inr h
    · rcases List.mem_cons.mp h with h | h
      · exact .inr (h ▸ List.mem_cons_self)
      · exact (ih h).imp_right fun hmem => List.mem_cons_of_mem _ hmem

/-- Assigning to a key that is there moves none. -/
theorem keys_insertOrAssign {key : Text} (hkeys : (t.map Prod.fst).Pairwise (· < ·))
    (h : (get t key).isSome) : (insertOrAssign key n t).map Prod.fst = t.map Prod.fst := by
  induction t with
  | nil => cases h
  | cons e t ih =>
    obtain ⟨k,m⟩ := e
    obtain ⟨hfirst,hkeys⟩ := List.pairwise_cons.mp hkeys
    rw [get_cons] at h
    rw [insertOrAssign]
    by_cases hk : k = key
    · rw [if_pos hk]
      rfl
    · rw [if_neg (Ne.symm hk)] at h
      obtain ⟨m',hm'⟩ := Option.isSome_iff_exists.mp h
      have hlt := hfirst key (List.mem_map_of_mem (f := Prod.fst) (mem_of_get hm'))
      rw [if_neg hk,if_neg hlt.asymm,List.map_cons,List.map_cons,ih hkeys h]

theorem Ordered.insertOrAssign {key : Text} (ht : Ordered t) (h : (get t key).isSome)
    (hn : ∀ sub, n = .table sub → Ordered sub) : Ordered (insertOrAssign key n t) := by
  obtain ⟨hkeys,hbelow⟩ := ht
  refine ⟨by rwa [keys_insertOrAssign hkeys h],fun k sub hmem => ?_⟩
  rcases mem_insertOrAssign hmem with ⟨-,heq⟩ | hmem
  · exact hn sub heq.symm
  · exact hbelow k sub hmem

theorem Ordered.of_get {key : Text} {sub : Table φ δ} (ht : Ordered t)
    (h : get t key = some (.table sub)) : Ordered sub := by
  obtain ⟨-,hbelow⟩ := ht
  exact hbelow key sub (mem_of_get h)

theorem Ordered.assignAt (ht : Ordered t) (hn : ∀ sub, n = .table sub → Ordered sub)
    (h : assignAt n t p = some t') : Ordered t' := by
  induction p generalizing t t' with
  | nil => cases h
  | cons key p ih =>
    by_cases hp : p = []
    · subst hp
      obtain ⟨m,hget,rfl⟩ := Option.map_eq_some_iff.mp h
      exact ht.insertOrAssign (by rw [hget]; rfl) hn
    · obtain ⟨sub,sub',hget,hsub',rfl⟩ := assignAt_cons hp h
      refine ht.insertOrAssign (by rw [hget]; rfl) ?_
      rintro _ ⟨⟩
      exact ih (ht.of_get hget) hsub'

theorem Ordered.erase (ht : Ordered t) (key : Text) : Ordered (erase t key) := by
  obtain ⟨hkeys,hbelow⟩ := ht
  refine ⟨hkeys.sublist (List.filter_sublist.map Prod.fst),fun k sub hmem => ?_⟩
  exact hbelow k sub (List.mem_of_mem_filter hmem)

end Assign

end Toml
end Marketlib
