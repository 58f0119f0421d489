import Mathlib.Logic.Relation

/-!
# Runs of a state machine

A machine takes operations one after another, and an operation may fail. A run is
a sequence of operations each of which is allowed in the state it is taken in.
-/

namespace Run

open List

variable {σ α ε : Type*}

def Step (allowed : σ → α → Prop) (step : σ → α → Except ε σ) (s s' : σ) : Prop :=
  ∃ a, allowed s a ∧ step s a = .ok s'

/-- The states reached from `s`. -/
def Reaches (allowed : σ → α → Prop) (step : σ → α → Except ε σ) : σ → σ → Prop :=
  Relation.ReflTransGen (Step allowed step)

variable {allowed : σ → α → Prop} {step : σ → α → Except ε σ}
  {s : σ}

theorem Reaches.invariant {P : σ → Prop} {s₀ : σ} (h : Reaches allowed step s₀ s) (hinit : P s₀)
    (hstep : ∀ s a s', P s → allowed s a → step s a = .ok s' → P s') : P s := by
  induction h with
  | refl => exact hinit
  | tail _ hlast ih =>
    obtain ⟨a, ha, hok⟩ := hlast
    exact hstep _ a _ ih ha hok

theorem Reaches.mono {allowed' : σ → α → Prop} {s₀ : σ} (h : Reaches allowed step s₀ s)
    (hallowed : ∀ s a, allowed s a → allowed' s a) : Reaches allowed' step s₀ s := by
  induction h with
  | refl => exact .refl
  | tail _ hlast ih =>
    obtain ⟨a, ha, hok⟩ := hlast
    exact ih.tail ⟨a, hallowed _ a ha, hok⟩

def exec (allowed : σ → α → Prop) [∀ s a, Decidable (allowed s a)] (step : σ → α → Except ε σ)
    (s : σ) : List α → Option σ
  | [] => some s
  | a :: as =>
    if allowed s a then
      match step s a with
      | .ok s' => exec allowed step s' as
      | .error _ => none
    else none

theorem reaches_of_exec [∀ s a, Decidable (allowed s a)] {s' : σ} {as : List α}
    (h : exec allowed step s as = some s') : Reaches allowed step s s' := by
  induction as generalizing s with
  | nil =>
    cases h
    exact .refl
  | cons a as ih =>
    unfold exec at h
    by_cases ha : allowed s a
    · rw [if_pos ha] at h
      cases hok : step s a with
      | error e => simp [hok] at h
      | ok s₁ =>
        rw [hok] at h
        exact .head ⟨a, ha, hok⟩ (ih h)
    · simp [ha] at h

theorem exists_reaches_of_exec [∀ s a, Decidable (allowed s a)] {β : Type*} {view : σ → β}
    {b : β} {as : List α} (h : (exec allowed step s as).map view = some b) :
    ∃ s', Reaches allowed step s s' ∧ view s' = b := by
  obtain ⟨s', hs', hview⟩ := Option.map_eq_some_iff.1 h
  exact ⟨s', reaches_of_exec hs', hview⟩

theorem eq_ok_of_toOption {β : Type*} {x : Except ε β} {b : β} (h : x.toOption = some b) :
    x = .ok b := by
  cases x with
  | error e => cases h
  | ok a => rw [Option.some.inj h]

def error? {β : Type*} : Except ε β → Option ε
  | .ok _ => none
  | .error e => some e

theorem eq_error_of_error? {β : Type*} {x : Except ε β} {e : ε} (h : error? x = some e) :
    x = .error e := by
  cases x with
  | error e' => rw [Option.some.inj h]
  | ok b => cases h

theorem ok_bind {ε β γ : Type*} (b : β) (f : β → Except ε γ) :
    (Except.ok b : Except ε β).bind f = f b := rfl

theorem bind_eq_ok {β γ : Type*} {x : Except ε β} {f : β → Except ε γ} {c : γ}
    (h : x.bind f = .ok c) : ∃ b, x = .ok b ∧ f b = .ok c := by
  cases x with
  | error e => cases h
  | ok b => exact ⟨b, rfl, h⟩

theorem map_eq_ok {β γ : Type*} {x : Except ε β} {f : β → γ} {c : γ} (h : x.map f = .ok c) :
    ∃ b, x = .ok b ∧ f b = c := by
  cases x with
  | error e => cases h
  | ok b => exact ⟨b, rfl, Except.ok.inj h⟩

theorem foldlM_invariant {β γ : Type*} {P : β → Prop} {f : β → γ → Except ε β} {l : List γ}
    {b b' : β} (h : l.foldlM f b = .ok b') (hinit : P b)
    (hstep : ∀ b x b', x ∈ l → P b → f b x = .ok b' → P b') : P b' := by
  induction l generalizing b with
  | nil =>
    cases h
    exact hinit
  | cons x l ih =>
    rw [foldlM_cons] at h
    obtain ⟨b₁, hx, hl⟩ := bind_eq_ok h
    exact ih hl (hstep b x b₁ mem_cons_self hinit hx) fun b y b' hy =>
      hstep b y b' (mem_cons_of_mem x hy)

theorem mapM_eq_ok {β γ : Type*} {f : β → Except ε γ} {g : β → γ} {l : List β}
    (h : ∀ x ∈ l, f x = .ok (g x)) : l.mapM f = .ok (l.map g) := by
  induction l with
  | nil => rfl
  | cons x l ih =>
    rw [mapM_cons, h x mem_cons_self, ih fun y hy => h y (mem_cons_of_mem x hy)]
    rfl

theorem mem_of_mapM_eq_ok {β γ : Type*} {f : β → Except ε γ} {l : List β} {ys : List γ}
    (h : l.mapM f = .ok ys) :
    (∀ x ∈ l, ∃ y ∈ ys, f x = .ok y) ∧ ∀ y ∈ ys, ∃ x ∈ l, f x = .ok y := by
  induction l generalizing ys with
  | nil =>
    cases h
    exact ⟨fun x hx => absurd hx not_mem_nil, fun y hy => absurd hy not_mem_nil⟩
  | cons x l ih =>
    rw [mapM_cons] at h
    obtain ⟨y, hy, h⟩ := bind_eq_ok h
    obtain ⟨ys', hys, h⟩ := bind_eq_ok h
    cases h
    obtain ⟨hl, hr⟩ := ih hys
    constructor
    · intro x' hx'
      rcases mem_cons.1 hx' with rfl | hx'
      · exact ⟨y, mem_cons_self, hy⟩
      · obtain ⟨y', hy', hf⟩ := hl x' hx'
        exact ⟨y', mem_cons_of_mem y hy', hf⟩
    · intro y' hy'
      rcases mem_cons.1 hy' with rfl | hy'
      · exact ⟨x, mem_cons_self, hy⟩
      · obtain ⟨x', hx', hf⟩ := hr y' hy'
        exact ⟨x', mem_cons_of_mem x hx', hf⟩

end Run
