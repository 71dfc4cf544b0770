import Mathlib.Data.List.Basic

/-!
# Computations that are checked as they run

A computation on a state returns, or raises an error, or does not return (`none`). `Ensures` is its
rule of partial correctness: no error is raised, and whatever is returned meets a condition. The
lemmas say what each way to build a computation ensures, so that a proof follows the program.
-/

/-- A computation on a state `σ` that may raise an error `ε`, or not return. -/
abbrev Checked (σ ε : Type) : Type → Type := StateT σ (ExceptT ε Option)

namespace Checked

variable {σ ε α β : Type} {m : Checked σ ε α} {f : α → Checked σ ε β} {s : σ}
variable {P P' : α → σ → Prop} {Q : β → σ → Prop}

/-- What the computation does from `s`. -/
def exec (m : Checked σ ε α) (s : σ) : Option (Except ε (α × σ)) := (m.run s).run

/-- The computation raises no error from `s`, and what it returns meets `P`. -/
def Ensures (m : Checked σ ε α) (s : σ) (P : α → σ → Prop) : Prop :=
  match m.exec s with
  | none => True
  | some (.error _) => False
  | some (.ok (a, s')) => P a s'

/-- An operation that changes no state, and may not return. -/
def ofOption (o : Option α) : Checked σ ε α := fun s => ExceptT.mk (o.map fun a => .ok (a, s))

theorem ofOption_some (a : α) : (ofOption (some a) : Checked σ ε α) = pure a := rfl

theorem exec_bind : (m >>= f).exec s = (m.exec s).bind fun
    | .error e => some (.error e)
    | .ok (a, s') => (f a).exec s' := by
  show ((m s : Option (Except ε (α × σ))) >>= _) = _
  cases hm : (m s : Option (Except ε (α × σ))) with
  | none =>
    have hexec : m.exec s = none := hm
    rw [hexec]
    rfl
  | some r =>
    have hexec : m.exec s = some r := hm
    rw [hexec]
    cases r <;> rfl

theorem ensures_bind : Ensures (m >>= f) s Q ↔ Ensures m s fun a s' => Ensures (f a) s' Q := by
  unfold Ensures
  rw [exec_bind]
  cases m.exec s with
  | none => rfl
  | some r => cases r <;> rfl

theorem ensures_ofOption {o : Option α} :
    Ensures (ofOption o : Checked σ ε α) s P ↔ ∀ a, o = some a → P a s := by
  cases o with
  | none => exact ⟨fun _ a ha => absurd ha (by simp), fun _ => trivial⟩
  | some a => exact ⟨fun h b hb => Option.some.inj hb ▸ h, fun h => h a rfl⟩

theorem Ensures.mono (h : Ensures m s P) (hle : ∀ a s', P a s' → P' a s') : Ensures m s P' := by
  unfold Ensures at h ⊢
  cases hm : m.exec s with
  | none => trivial
  | some r =>
    rw [hm] at h
    cases r with
    | error e => exact h
    | ok p => exact hle _ _ h

/-- **The rule of sequence.** -/
theorem Ensures.bind (h : Ensures m s P) (hf : ∀ a s', P a s' → Ensures (f a) s' Q) :
    Ensures (m >>= f) s Q :=
  ensures_bind.2 (h.mono hf)

/-- What follows an operation that may not return. -/
theorem ensures_ofOption_bind {o : Option α} (hf : ∀ a, o = some a → Ensures (f a) s Q) :
    Ensures (ofOption o >>= f) s Q :=
  ensures_bind.2 (ensures_ofOption.2 hf)

/-- **The rule of a pass over a list**: `T` relates the part of the list that is done, and the
state before it, to the results and the state after it. -/
theorem ensures_mapM' {g : α → Checked σ ε β} {R : α → β → σ → σ → Prop}
    {T : List α → List β → σ → σ → Prop} {l : List α} (hnil : ∀ s, T [] [] s s)
    (hcons : ∀ {a b as bs s s₁ s₂}, R a b s s₁ → T as bs s₁ s₂ → T (a :: as) (b :: bs) s s₂)
    (hg : ∀ a ∈ l, ∀ s, Ensures (g a) s fun b s' => R a b s s') (s : σ) :
    Ensures (l.mapM' g) s fun bs s' => T l bs s s' := by
  induction l generalizing s with
  | nil => exact hnil s
  | cons a as ih =>
    rw [List.mapM'_cons]
    refine (hg a List.mem_cons_self s).bind ?_
    intro b s₁ hb
    refine (ih (fun a ha => hg a (List.mem_cons_of_mem _ ha)) s₁).bind ?_
    intro bs s₂ hbs
    exact hcons hb hbs

end Checked
