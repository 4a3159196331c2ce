/-
# Two computations side by side

Two computations of the same shape can be followed side by side.  They are paired if their values
are related whenever both succeed; nothing is said where one of them fails.  One follows the other
if it succeeds whenever the other does, with a related value.

Key facts:
* `Paired.bind` and `Follows.bind` : two steps in sequence, side by side;
* `Paired.foldlM` and `Follows.foldlM` : the same steps over two lists, one by one.
-/
import MinCut.Fault

namespace MinCut

/-- **Two computations are paired** by `R` if it relates their values whenever both succeed. -/
def Paired {ε α β : Type} (R : α → β → Prop) (x : Except ε α) (y : Except ε β) : Prop :=
  ∀ a b, x = .ok a → y = .ok b → R a b

namespace Paired

variable {ε α β γ δ : Type} {R : α → β → Prop} {S : γ → δ → Prop} {x : Except ε α}
  {y : Except ε β} {a : α} {b : β}

theorem ok (h : R a b) : Paired R (.ok a : Except ε α) (.ok b) := by
  intro a' b' ha hb
  cases ha
  cases hb
  exact h

theorem error_left (e : ε) : Paired R (.error e) y := by
  intro a b ha
  cases ha

theorem error_right (e : ε) : Paired R x (.error e) := by
  intro a b _ hb
  cases hb

/-- One computation twice. -/
theorem refl (x : Except ε α) : Paired Eq x x := by
  intro a b ha hb
  exact Except.ok.inj (ha.symm.trans hb)

/-- **Steps in sequence** are paired if the first ones are, and the rest on related values. -/
theorem bind {k : α → Except ε γ} {l : β → Except ε δ} (h : Paired R x y)
    (hk : ∀ a b, R a b → Paired S (k a) (l b)) : Paired S (x >>= k) (y >>= l) := by
  intro c d hc hd
  obtain ⟨a, ha, hc⟩ := bind_eq_ok_iff.1 hc
  obtain ⟨b, hb, hd⟩ := bind_eq_ok_iff.1 hd
  exact hk a b (h a b ha hb) c d hc hd

/-- A choice is paired if both computations choose alike, and each branch is paired. -/
theorem ite {p q : Prop} [Decidable p] [Decidable q] {x' : Except ε α} {y' : Except ε β}
    (hpq : p ↔ q) (hthen : p → Paired R x y) (helse : ¬ p → Paired R x' y') :
    Paired R (if p then x else x') (if q then y else y') := by
  by_cases hp : p
  · rw [if_pos hp, if_pos (hpq.1 hp)]
    exact hthen hp
  · rw [if_neg hp, if_neg (fun hq => hp (hpq.2 hq))]
    exact helse hp

/-- A step that is made or left out by choice, and what comes after it in either case. -/
theorem bind_ite {p q : Prop} [Decidable p] [Decidable q] {k : α → Except ε γ}
    {l : β → Except ε δ} (hpq : p ↔ q) (h : Paired R x y) (hab : R a b)
    (hk : ∀ a b, R a b → Paired S (k a) (l b)) :
    Paired S (if p then x >>= k else k a) (if q then y >>= l else l b) :=
  .ite hpq (fun _ => h.bind hk) fun _ => hk a b hab

/-- The same steps over two lists, of which one has the entries of the other under `g`. -/
theorem foldlM {κ κ' : Type} {f : α → κ → Except ε α} {f' : β → κ' → Except ε β} {g : κ → κ'}
    (hstep : ∀ a b k, R a b → Paired R (f a k) (f' b (g k))) (ks : List κ) (h : R a b) :
    Paired R (ks.foldlM f a) ((ks.map g).foldlM f' b) := by
  induction ks generalizing a b with
  | nil => exact ok h
  | cons k ks ih => exact (hstep a b k h).bind fun a' b' h' => ih h'

end Paired

/-- **The computation `y` follows `x`** up to `R`: it succeeds whenever `x` does, and `R` relates
their values. -/
def Follows {ε α β : Type} (R : α → β → Prop) (x : Except ε α) (y : Except ε β) : Prop :=
  ∀ a, x = .ok a → ∃ b, y = .ok b ∧ R a b

namespace Follows

variable {ε α β γ δ : Type} {R : α → β → Prop} {S : γ → δ → Prop} {x : Except ε α}
  {y : Except ε β} {a : α} {b : β}

theorem ok (h : R a b) : Follows R (.ok a : Except ε α) (.ok b) := by
  intro a' ha
  cases ha
  exact ⟨b, rfl, h⟩

theorem error (e : ε) : Follows R (.error e) y := by
  intro a ha
  cases ha

/-- A computation follows itself. -/
theorem refl (x : Except ε α) : Follows Eq x x := fun a ha => ⟨a, ha, rfl⟩

/-- **Steps in sequence** follow steps in sequence. -/
theorem bind {k : α → Except ε γ} {l : β → Except ε δ} (h : Follows R x y)
    (hk : ∀ a b, R a b → Follows S (k a) (l b)) : Follows S (x >>= k) (y >>= l) := by
  intro c hc
  obtain ⟨a, ha, hc⟩ := bind_eq_ok_iff.1 hc
  obtain ⟨b, hb, hab⟩ := h a ha
  obtain ⟨d, hd, hcd⟩ := hk a b hab c hc
  exact ⟨d, bind_eq_ok_iff.2 ⟨b, hb, hd⟩, hcd⟩

/-- Steps that follow a step with the same value. -/
theorem bind_of_eq {x y : Except ε α} {k : α → Except ε γ} {l : α → Except ε δ}
    (h : Follows Eq x y) (hk : ∀ a, Follows S (k a) (l a)) : Follows S (x >>= k) (y >>= l) := by
  refine h.bind ?_
  rintro a _ rfl
  exact hk a

/-- A choice follows a choice if both are made alike. -/
theorem ite {p q : Prop} [Decidable p] [Decidable q] {x' : Except ε α} {y' : Except ε β}
    (hpq : p ↔ q) (hthen : p → Follows R x y) (helse : ¬ p → Follows R x' y') :
    Follows R (if p then x else x') (if q then y else y') := by
  by_cases hp : p
  · rw [if_pos hp, if_pos (hpq.1 hp)]
    exact hthen hp
  · rw [if_neg hp, if_neg (fun hq => hp (hpq.2 hq))]
    exact helse hp

/-- A step that is made or left out by choice, and what comes after it in either case. -/
theorem bind_ite {p q : Prop} [Decidable p] [Decidable q] {k : α → Except ε γ}
    {l : β → Except ε δ} (hpq : p ↔ q) (h : Follows R x y) (hab : R a b)
    (hk : ∀ a b, R a b → Follows S (k a) (l b)) :
    Follows S (if p then x >>= k else k a) (if q then y >>= l else l b) :=
  .ite hpq (fun _ => h.bind hk) fun _ => hk a b hab

/-- Steps over a list follow other steps over it, one by one. -/
theorem foldlM {κ : Type} {f : α → κ → Except ε α} {f' : β → κ → Except ε β} {ks : List κ}
    (hstep : ∀ a b, ∀ k ∈ ks, R a b → Follows R (f a k) (f' b k)) (h : R a b) :
    Follows R (ks.foldlM f a) (ks.foldlM f' b) := by
  induction ks generalizing a b with
  | nil => exact ok h
  | cons k ks ih =>
    refine (hstep a b k List.mem_cons_self h).bind ?_
    intro a' b' h'
    exact ih (fun a b j hj => hstep a b j (List.mem_cons_of_mem k hj)) h'

end Follows

end MinCut
