import Mathlib.Logic.Basic

/-!
# Reading from a sequence

A reader is a stateful computation that may throw and then keeps the state it
has reached. `Consumes avail m bs a` says what a successful reader does in
terms of the input alone: whenever the items `bs` are next (`avail` tells which
items a state can still read), `m` returns `a` and leaves exactly what follows
`bs`. The rules for `pure` and `bind` let a decoder be followed token by token.
-/

universe u

variable {ε σ : Type u} {α γ : Type u} {β : Type*}

/-- `m` returns `a` and consumes exactly `bs` whenever `bs` is next. -/
def Consumes (avail : σ → List β → Prop) (m : ExceptT ε (StateM σ) α)
    (bs : List β) (a : α) : Prop :=
  ∀ s rest, avail s (bs ++ rest) → ∃ s', m s = (.ok a, s') ∧ avail s' rest

namespace Consumes

variable {m : ExceptT ε (StateM σ) α} {a : α} {f : α → ExceptT ε (StateM σ) γ} {s : σ} {bs : List β}

theorem bind_apply_of_ok {s' : σ} (h : m s = (.ok a, s')) : (m >>= f) s = f a s' := by
  change (match m s with | (x, s') => ExceptT.bindCont f x s') = _
  rw [h]
  rfl

theorem get_bind_apply (f : σ → ExceptT ε (StateM σ) γ) (s : σ) : (get >>= f) s = f s s := rfl

theorem bind_apply_of_error {s' : σ} {e : ε} (h : m s = (.error e, s')) :
    (m >>= f) s = (.error e, s') := by
  change (match m s with | (x, s') => ExceptT.bindCont f x s') = _
  rw [h]
  rfl

variable {avail : σ → List β → Prop}

protected theorem pure (a : α) :
    Consumes avail (pure a : ExceptT ε (StateM σ) α) [] a :=
  fun s _ h => ⟨s, rfl, h⟩

protected theorem bind {cs : List β} {c : γ} (hm : Consumes avail m bs a)
    (hf : Consumes avail (f a) cs c) : Consumes avail (m >>= f) (bs ++ cs) c := by
  intro s rest h
  rw [List.append_assoc] at h
  obtain ⟨s₁, hrun₁, h₁⟩ := hm s _ h
  obtain ⟨s₂, hrun₂, h₂⟩ := hf s₁ rest h₁
  exact ⟨s₂, (bind_apply_of_ok hrun₁).trans hrun₂, h₂⟩

theorem bind_apply {rest : List β} (hm : Consumes avail m bs a) (f : α → ExceptT ε (StateM σ) γ)
    (h : avail s (bs ++ rest)) : ∃ s', (m >>= f) s = f a s' ∧ avail s' rest := by
  obtain ⟨s', hrun, h'⟩ := hm s rest h
  exact ⟨s', bind_apply_of_ok hrun, h'⟩

theorem bind_pure {f : α → γ} (hm : Consumes avail m bs a) :
    Consumes avail (m >>= fun x => Pure.pure (f x)) bs (f a) := by
  have hf : Consumes avail ((fun x => Pure.pure (f x)) a : ExceptT ε (StateM σ) γ) [] (f a) :=
    Consumes.pure (f a)
  have h := hm.bind (f := fun x => Pure.pure (f x)) hf
  rwa [List.append_nil] at h

end Consumes
