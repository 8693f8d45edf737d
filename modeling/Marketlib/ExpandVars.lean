import Marketlib.ConfigLoad

/-! Expansion of variables is one pass from left to right over the text, and what it puts in is
not read again. -/

namespace Marketlib
namespace Config

open Binding Toml

/-- `${n}`, as it is written in the text. -/
def reference (n : Text) : Text := '$' :: '{' :: n ++ ['}']

/-- Every `${` of the text has a closing brace after it. -/
def Closed (a : Text) : Prop := ∀ u v, a = u ++ '$' :: '{' :: v → '}' ∈ v

/-- A left-to-right substitution in one pass of `value n` for `${n}`. -/
structure SinglePass (value : Text → Option Text) (expand : Text → Text) : Prop where
  append : ∀ a b, Closed a → ¬(a.getLast? = some '$' ∧ b.head? = some '{') →
    expand (a ++ b) = expand a ++ expand b
  lookup : ∀ n, '}' ∉ n → expand (reference n) = (value n).getD (reference n)
  plain : ∀ s, ¬['$','{'] <:+: s → expand s = s
  unclosed : ∀ a t, '}' ∉ t → expand (a ++ '$' :: '{' :: t) = expand a ++ '$' :: '{' :: t
  substituted : ∀ a n b, Closed a → '}' ∉ n →
    expand (a ++ reference n ++ b) = expand a ++ (value n).getD (reference n) ++ expand b

theorem Closed.of_append {u s : Text} (h : Closed (u ++ s)) : Closed s := by
  intro v w hs
  exact h (u ++ v) w (by rw [hs,List.append_assoc])

theorem closed_of_plain {s : Text} (h : ¬['$','{'] <:+: s) : Closed s := by
  intro u v hs
  exact absurd ⟨u,v,by simp [hs]⟩ h

theorem plain_singleton (c : Char) : ¬['$','{'] <:+: [c] := by
  intro h
  exact absurd h.length_le (by simp)

theorem untilBrace_append {n : Text} (hn : '}' ∉ n) (b : Text) :
    untilBrace (n ++ '}' :: b) = some (n,b) := by
  induction n with
  | nil => rfl
  | cons c n ih =>
    have hc : c ≠ '}' := (List.ne_of_not_mem_cons hn).symm
    rw [List.cons_append,untilBrace,if_neg hc,ih (List.not_mem_of_not_mem_cons hn)]
    rfl

theorem untilBrace_eq_none {s : Text} (hs : '}' ∉ s) : untilBrace s = none := by
  induction s with
  | nil => rfl
  | cons c s ih =>
    have hc : c ≠ '}' := (List.ne_of_not_mem_cons hs).symm
    rw [untilBrace,if_neg hc,ih (List.not_mem_of_not_mem_cons hs)]
    rfl

/-- The ways the scan goes on: the end, a character that opens nothing, a reference, and a `${`
with no closing brace after it. -/
theorem scan_induction {motive : Text → Prop} (nil : motive [])
    (char : ∀ c s, ¬(c = '$' ∧ s.head? = some '{') → motive s → motive (c :: s))
    (closed : ∀ n s, '}' ∉ n → motive s → motive (reference n ++ s))
    (unclosed : ∀ s, '}' ∉ s → motive ('$' :: '{' :: s)) (s : Text) : motive s := by
  induction hlen : s.length using Nat.strong_induction_on generalizing s with
  | _ k ih =>
    subst hlen
    cases s with
    | nil => exact nil
    | cons c s =>
      by_cases hopen : c = '$' ∧ s.head? = some '{'
      · obtain ⟨rfl,hhead⟩ := hopen
        obtain ⟨t,rfl⟩ := List.head?_eq_some_iff.mp hhead
        by_cases hbrace : '}' ∈ t
        · obtain ⟨n,rest,rfl,hn⟩ := List.eq_append_cons_of_mem hbrace
          have htail : motive rest := ih rest.length (by simp; omega) rest rfl
          simpa [reference] using closed n rest hn htail
        · exact unclosed t hbrace
      · exact char c s hopen (ih s.length (by simp) s rfl)

section SinglePass

variable {value : Text → Option Text} {f g : Text → Text}

theorem SinglePass.nil (h : SinglePass value f) : f [] = [] :=
  h.plain [] fun hinfix => absurd hinfix.length_le (by simp)

theorem SinglePass.char (h : SinglePass value f) {c : Char} {s : Text}
    (hc : ¬(c = '$' ∧ s.head? = some '{')) : f (c :: s) = c :: f s := by
  have happend := h.append [c] s (closed_of_plain (plain_singleton c)) (by simpa using hc)
  rwa [h.plain [c] (plain_singleton c)] at happend

theorem SinglePass.reference_append (h : SinglePass value f) {n : Text} (hn : '}' ∉ n)
    (s : Text) : f (reference n ++ s) = (value n).getD (reference n) ++ f s := by
  have hput := h.substituted [] n s (closed_of_plain (by simp)) hn
  rwa [h.nil] at hput

theorem SinglePass.opening (h : SinglePass value f) {s : Text} (hs : '}' ∉ s) :
    f ('$' :: '{' :: s) = '$' :: '{' :: s := by
  have hkept := h.unclosed [] s hs
  rwa [h.nil] at hkept

/-- The laws leave no choice. -/
theorem SinglePass.unique (hf : SinglePass value f) (hg : SinglePass value g) : f = g := by
  funext s
  induction s using scan_induction with
  | nil => rw [hf.nil,hg.nil]
  | char c s hc ih => rw [hf.char hc,hg.char hc,ih]
  | closed n s hn ih => rw [hf.reference_append hn,hg.reference_append hn,ih]
  | unclosed s hs => rw [hf.opening hs,hg.opening hs]

end SinglePass

variable (env : Environment)

@[simp] theorem expandVars_nil : expandVars env [] = [] := by
  rw [expandVars]

theorem expandVars_char {c : Char} {s : Text} (h : ¬(c = '$' ∧ s.head? = some '{')) :
    expandVars env (c :: s) = c :: expandVars env s := by
  rw [expandVars]
  rintro tail rfl rfl
  exact h ⟨rfl,rfl⟩

theorem expandVars_reference_append {n : Text} (hn : '}' ∉ n) (b : Text) :
    expandVars env (reference n ++ b) =
      (getenv env n).getD (reference n) ++ expandVars env b := by
  have htext : reference n ++ b = '$' :: '{' :: (n ++ '}' :: b) := by simp [reference]
  rw [htext,expandVars]
  split
  · next var rest hbrace =>
    rw [untilBrace_append hn] at hbrace
    cases hbrace
    rfl
  · next hbrace => rw [untilBrace_append hn] at hbrace; cases hbrace

/-- Nothing is put in where no brace closes. -/
theorem expandVars_of_not_mem {s : Text} (hs : '}' ∉ s) : expandVars env s = s := by
  fun_induction expandVars env s with
  | case1 => rfl
  | case2 tail var rest hbrace _ =>
    rw [untilBrace_eq_none (by simp_all)] at hbrace
    cases hbrace
  | case3 tail _ ih => rw [ih (List.not_mem_of_not_mem_cons hs)]
  | case4 c tail _ ih => rw [ih (List.not_mem_of_not_mem_cons hs)]

theorem expandVars_append {a b : Text} (ha : Closed a)
    (hjoin : ¬(a.getLast? = some '$' ∧ b.head? = some '{')) :
    expandVars env (a ++ b) = expandVars env a ++ expandVars env b := by
  induction a using scan_induction with
  | nil => simp
  | char c s hc ih =>
    have hopen : ¬(c = '$' ∧ (s ++ b).head? = some '{') := by
      cases s with
      | nil => simpa using hjoin
      | cons d s => simpa using hc
    have hrest : ¬(s.getLast? = some '$' ∧ b.head? = some '{') := by
      cases s with
      | nil => simp
      | cons d s => simpa using hjoin
    have hclosed : Closed s := Closed.of_append (u := [c]) ha
    rw [List.cons_append,expandVars_char env hopen,expandVars_char env hc,ih hclosed hrest,
      List.cons_append]
  | closed n s hn ih =>
    have hrest : ¬(s.getLast? = some '$' ∧ b.head? = some '{') := by
      rintro ⟨hlast,hhead⟩
      exact hjoin ⟨by rw [List.getLast?_append,hlast]; rfl,hhead⟩
    rw [List.append_assoc,expandVars_reference_append env hn,expandVars_reference_append env hn,
      ih ha.of_append hrest,List.append_assoc]
  | unclosed s hs => exact absurd (ha [] s rfl) hs

theorem expandVars_reference {n : Text} (hn : '}' ∉ n) :
    expandVars env (reference n) = (getenv env n).getD (reference n) := by
  simpa using expandVars_reference_append env hn []

theorem expandVars_plain {s : Text} (hs : ¬['$','{'] <:+: s) : expandVars env s = s := by
  induction s using scan_induction with
  | nil => exact expandVars_nil env
  | char c s hc ih =>
    rw [expandVars_char env hc,ih fun h => hs (h.trans (List.suffix_cons c s).isInfix)]
  | closed n s _ _ => exact absurd ⟨[],n ++ ['}'] ++ s,by simp [reference]⟩ hs
  | unclosed s _ => exact absurd ⟨[],s,rfl⟩ hs

theorem expandVars_unclosed (a : Text) {t : Text} (ht : '}' ∉ t) :
    expandVars env (a ++ '$' :: '{' :: t) = expandVars env a ++ '$' :: '{' :: t := by
  have htail : '}' ∉ '$' :: '{' :: t := by simpa using ht
  induction a using scan_induction with
  | nil => simpa using expandVars_of_not_mem env htail
  | char c s hc ih =>
    have hopen : ¬(c = '$' ∧ (s ++ '$' :: '{' :: t).head? = some '{') := by
      cases s with
      | nil => simp
      | cons d s => simpa using hc
    rw [List.cons_append,expandVars_char env hopen,expandVars_char env hc,ih,List.cons_append]
  | closed n s hn ih =>
    rw [List.append_assoc,expandVars_reference_append env hn,expandVars_reference_append env hn,
      ih,List.append_assoc]
  | unclosed s hs =>
    have hhead : '}' ∉ '$' :: '{' :: s := by simpa using hs
    rw [expandVars_of_not_mem env hhead,
      expandVars_of_not_mem env (List.not_mem_append hhead htail)]

theorem expandVars_singlePass : SinglePass (getenv env) (expandVars env) where
  append _ _ ha hjoin := expandVars_append env ha hjoin
  lookup _ hn := expandVars_reference env hn
  plain _ hs := expandVars_plain env hs
  unclosed a _ ht := expandVars_unclosed env a ht
  substituted a n b ha hn := by
    rw [List.append_assoc,expandVars_append env ha (by simp [reference]),
      expandVars_reference_append env hn,List.append_assoc]

/-- `A` is set to `1`, and nothing else is. -/
def oneVariable : Environment := fun name => if name = ['A'] then some ['1'] else none

/-- A name that is not set is expanded, to the value of what stands before its null character. -/
theorem null_cuts_name :
    oneVariable "A\x00x".toList = none ∧
      expandVars oneVariable (reference "A\x00x".toList) = "1".toList ∧
      ¬SinglePass oneVariable (expandVars oneVariable) := by
  have hunset : oneVariable "A\x00x".toList = none := by decide
  have hput : expandVars oneVariable (reference "A\x00x".toList) = "1".toList := by
    rw [expandVars_reference oneVariable (by decide)]
    decide
  refine ⟨hunset,hput,fun hpass => ?_⟩
  have hkept := hpass.lookup "A\x00x".toList (by decide)
  rw [hput,hunset] at hkept
  revert hkept
  decide

end Config
end Marketlib
