import Mathlib.Order.Defs.Unbundled
import Mathlib.Tactic.Common

/-! Computations that read and change a state and can end with an exception. `Does m r` says that
`m` ends with a result from every state, and leads to one that `r` relates to it. -/

namespace Marketlib
namespace Effects

variable {ε σ α β : Type}

def Does (m : ExceptT ε (StateM σ) α) (r : σ → σ → Prop) : Prop :=
  ∀ s, ∃ a t, m s = (.ok a,t) ∧ r s t

theorem bind_apply (m : ExceptT ε (StateM σ) α) (f : α → ExceptT ε (StateM σ) β) (s : σ) :
    (m >>= f) s = ExceptT.bindCont f (m s).1 (m s).2 := rfl

theorem bind_ok {m : ExceptT ε (StateM σ) α} {f : α → ExceptT ε (StateM σ) β} {s t : σ} {a : α}
    (h : m s = (.ok a,t)) : (m >>= f) s = f a t := by
  rw [bind_apply,h]
  rfl

theorem bind_error {m : ExceptT ε (StateM σ) α} {f : α → ExceptT ε (StateM σ) β} {s t : σ} {e : ε}
    (h : m s = (.error e,t)) : (m >>= f) s = (.error e,t) := by
  rw [bind_apply,h]
  rfl

theorem Does.bind {m : ExceptT ε (StateM σ) α} {f : α → ExceptT ε (StateM σ) β}
    {r r' r'' : σ → σ → Prop} (hm : Does m r) (hf : ∀ a, Does (f a) r')
    (htrans : ∀ {s t u}, r s t → r' t u → r'' s u) : Does (m >>= f) r'' := by
  intro s
  obtain ⟨a,t,hma,hst⟩ := hm s
  obtain ⟨b,u,hfb,htu⟩ := hf a t
  exact ⟨b,u,(bind_ok hma).trans hfb,htrans hst htu⟩

theorem Does.mono {m : ExceptT ε (StateM σ) α} {r r' : σ → σ → Prop} (hm : Does m r)
    (himp : ∀ {s t}, r s t → r' s t) : Does m r' := by
  intro s
  obtain ⟨a,t,hma,hst⟩ := hm s
  exact ⟨a,t,hma,himp hst⟩

theorem does_pure (a : α) {r : σ → σ → Prop} (hrefl : ∀ s, r s s) :
    Does (pure a : ExceptT ε (StateM σ) α) r := fun s => ⟨a,s,rfl,hrefl s⟩

theorem does_modify (f : σ → σ) {r : σ → σ → Prop} (hf : ∀ s, r s (f s)) :
    Does (modify f : ExceptT ε (StateM σ) PUnit) r := fun s => ⟨⟨⟩,f s,rfl,hf s⟩

/-- What is read can be anything. -/
theorem does_get_bind {f : σ → ExceptT ε (StateM σ) β} {r : σ → σ → Prop}
    (hf : ∀ s, Does (f s) r) : Does (get >>= f) r := fun s => hf s s

end Effects
end Marketlib
