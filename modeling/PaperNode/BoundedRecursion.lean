import Mathlib.Order.Filter.AtTopBot.Basic

/-!
# Recursion under a step budget

A recursive procedure that may abort or run forever is written with an explicit
budget. It returns a value, stops at a failed check, or exhausts the budget.
The three outcomes are kept apart: a failed check is a fact about the input,
an exhausted budget says nothing.

`Settles f r` states termination: from some budget on, every run returns `r`.
It composes through sequencing, so termination of a nested procedure is proved
call by call without ever naming a budget.
-/
namespace PaperNode.BoundedRecursion
open Filter

/-- A failed check at a named site, or an exhausted budget. -/
inductive Fault (ε : Type*) where
  | failed (site : ε)
  | exhausted
  deriving DecidableEq, Repr

abbrev Check (ε α : Type*) := Except (Fault ε) α

universe u v
variable {ε : Type u} {α β : Type v}

def require (c : Prop) [Decidable c] (site : ε) : Check ε PUnit :=
  if c then .ok ⟨⟩ else .error (.failed site)

def demand (x : Option α) (site : ε) : Check ε α :=
  match x with
  | some a => .ok a
  | none => .error (.failed site)

def fail (site : ε) : Check ε α := .error (.failed site)

def exhaust : Check ε α := .error .exhausted

theorem bind_eq_ok {x : Check ε α} {f : α → Check ε β} {r : β} :
    (x >>= f) = .ok r ↔ ∃ a, x = .ok a ∧ f a = .ok r := by
  rcases x with e | a
  · constructor
    · intro h
      cases h
    · rintro ⟨a, h, _⟩
      cases h
  · constructor
    · exact fun h => ⟨a, rfl, h⟩
    · rintro ⟨_, ⟨⟩, h⟩
      exact h

@[simp] theorem ok_bind (a : α) (f : α → Check ε β) :
    ((Except.ok a : Check ε α) >>= f) = f a := rfl

@[simp] theorem require_eq_ok {c : Prop} [Decidable c] {site : ε} {u : PUnit} :
    require c site = .ok u ↔ c := by
  unfold require
  split_ifs with h <;> simp [h]

@[simp] theorem demand_eq_ok {x : Option α} {site : ε} {a : α} :
    demand x site = .ok a ↔ x = some a := by
  cases x <;> simp [demand]

theorem ite_eq_ok {c : Prop} [Decidable c] {x y : Check ε α} {r : α} :
    (if c then x else y) = .ok r ↔ (c ∧ x = .ok r) ∨ (¬ c ∧ y = .ok r) := by
  split_ifs with h <;> simp [h]

theorem require_of {c : Prop} [Decidable c] (h : c) (site : ε) :
    require c site = .ok ⟨⟩ := if_pos h

@[simp] theorem fail_ne_ok (site : ε) (r : α) : (fail site : Check ε α) ≠ .ok r := by
  simp [fail]

@[simp] theorem exhaust_ne_ok (r : α) : (exhaust : Check ε α) ≠ .ok r := by
  simp [exhaust]

def returns (x : Check ε α) (test : α → Bool) : Bool :=
  match x with
  | .ok a => test a
  | .error _ => false

theorem exists_of_returns {x : Check ε α} {test : α → Bool} (h : returns x test = true) :
    ∃ a, x = .ok a ∧ test a = true := by
  rcases x with e | a
  · cases h
  · exact ⟨a, rfl, h⟩

/-- The same procedure with its sites renamed, as seen from a caller. -/
def relabel {δ : Type*} (f : ε → δ) : Check ε α → Check δ α
  | .ok a => .ok a
  | .error (.failed site) => .error (.failed (f site))
  | .error .exhausted => .error .exhausted

@[simp] theorem relabel_eq_ok {δ : Type*} {f : ε → δ} {x : Check ε α} {a : α} :
    relabel f x = .ok a ↔ x = .ok a := by
  match x with
  | .ok _ => simp [relabel]
  | .error (.failed _) => simp [relabel]
  | .error .exhausted => simp [relabel]

def Ensures (x : Check ε α) (Q : α → Prop) : Prop := ∀ a, x = .ok a → Q a

theorem Ensures.ok {Q : α → Prop} {a : α} (h : Q a) : Ensures (.ok a : Check ε α) Q := by
  intro b hb
  cases hb
  exact h

theorem Ensures.of_fail {Q : α → Prop} (site : ε) : Ensures (fail site : Check ε α) Q :=
  fun a h => absurd h (fail_ne_ok site a)

theorem Ensures.of_exhaust {Q : α → Prop} : Ensures (exhaust : Check ε α) Q :=
  fun a h => absurd h (exhaust_ne_ok a)

theorem Ensures.bind {P : α → Prop} {Q : β → Prop} {x : Check ε α} {f : α → Check ε β}
    (hx : Ensures x P) (hf : ∀ a, P a → Ensures (f a) Q) : Ensures (x >>= f) Q := by
  intro b hb
  obtain ⟨a, ha, hb⟩ := bind_eq_ok.mp hb
  exact hf a (hx a ha) b hb

theorem Ensures.after {Q : β → Prop} {x : Check ε α} {f : α → Check ε β}
    (hf : ∀ a, Ensures (f a) Q) : Ensures (x >>= f) Q := by
  intro b hb
  obtain ⟨a, _, hb⟩ := bind_eq_ok.mp hb
  exact hf a b hb

theorem Ensures.ite {c : Prop} [Decidable c] {Q : α → Prop} {x y : Check ε α}
    (hx : c → Ensures x Q) (hy : ¬ c → Ensures y Q) : Ensures (if c then x else y) Q := by
  split_ifs with h
  · exact hx h
  · exact hy h

/-- Every sufficiently large budget returns `r`. -/
def Settles (f : ℕ → Check ε α) (r : α) : Prop := ∀ᶠ n in atTop, f n = .ok r

theorem settles_iff {f : ℕ → Check ε α} {r : α} :
    Settles f r ↔ ∃ N, ∀ n, N ≤ n → f n = .ok r := by
  simp only [Settles, eventually_atTop]

theorem Settles.exists_ok {f : ℕ → Check ε α} {r : α} (h : Settles f r) :
    ∃ n, f n = .ok r := h.exists

theorem Settles.of_forall {f : ℕ → Check ε α} {r : α} (h : ∀ n, f n = .ok r) : Settles f r :=
  Eventually.of_forall h

/-- One unit of the budget may be spent on entering the procedure. -/
theorem Settles.succ {f g : ℕ → Check ε α} {r : α} (h : Settles g r)
    (hf : ∀ n, f (n + 1) = g n) : Settles f r := by
  obtain ⟨N, hN⟩ := settles_iff.mp h
  refine settles_iff.mpr ⟨N + 1, ?_⟩
  intro n hn
  obtain ⟨m, rfl⟩ : ∃ m, n = m + 1 := ⟨n - 1, by omega⟩
  rw [hf]
  exact hN m (by omega)

theorem Settles.of_succ {f : ℕ → Check ε α} {r : α} (h : ∀ n, f (n + 1) = .ok r) : Settles f r :=
  Settles.succ (Settles.of_forall fun _ => rfl) h

theorem Settles.bind {f : ℕ → Check ε α} {g : ℕ → α → Check ε β} {a : α} {r : β}
    (hf : Settles f a) (hg : Settles (fun n => g n a) r) :
    Settles (fun n => f n >>= g n) r := by
  filter_upwards [hf, hg] with n h₁ h₂
  rw [h₁, ok_bind, h₂]

theorem Settles.of_bind {f : ℕ → Check ε α} {g : ℕ → α → Check ε β} {a : α} {r : β}
    (hf : Settles f a) (h : Settles (fun n => f n >>= g n) r) : Settles (fun n => g n a) r := by
  filter_upwards [hf, h] with n h₁ h₂
  rw [← h₂, h₁, ok_bind]

theorem Settles.shift {f g : ℕ → Check ε α} {r : α} (h : Settles f r)
    (hf : ∀ n, f (n + 1) = g n) : Settles g r := by
  obtain ⟨N, hN⟩ := settles_iff.mp h
  refine settles_iff.mpr ⟨N, ?_⟩
  intro n hn
  rw [← hf]
  exact hN (n + 1) (by omega)

def Steady (f : ℕ → Check ε α) : Prop := ∀ n r, f n = .ok r → f (n + 1) = .ok r

theorem Steady.settles {f : ℕ → Check ε α} {r : α} {n : ℕ} (hf : Steady f) (hn : f n = .ok r) :
    Settles f r := by
  refine settles_iff.mpr ⟨n, ?_⟩
  intro m hm
  induction m, hm using Nat.le_induction with
  | base => exact hn
  | succ m _ ih => exact hf m r ih

theorem Settles.unique {f : ℕ → Check ε α} {r r' : α} (h : Settles f r) (h' : Settles f r') :
    r = r' := by
  obtain ⟨n, hn, hn'⟩ := (h.and h').exists
  exact Except.ok.inj (hn.symm.trans hn')

theorem Settles.eq_of_steady {f : ℕ → Check ε α} {r r' : α} {n : ℕ} (h : Settles f r)
    (hf : Steady f) (hn : f n = .ok r') : r' = r := (hf.settles hn).unique h

theorem bind_ok_mono {x x' : Check ε α} {f f' : α → Check ε β} {r : β}
    (hx : ∀ a, x = .ok a → x' = .ok a) (hf : ∀ a, f a = .ok r → f' a = .ok r)
    (h : (x >>= f) = .ok r) : (x' >>= f') = .ok r := by
  obtain ⟨a, ha, hr⟩ := bind_eq_ok.mp h
  exact bind_eq_ok.mpr ⟨a, hx a ha, hf a hr⟩

theorem ite_ok_mono {c : Prop} [Decidable c] {x x' y y' : Check ε α} {r : α}
    (hx : x = .ok r → x' = .ok r) (hy : y = .ok r → y' = .ok r)
    (h : (if c then x else y) = .ok r) : (if c then x' else y') = .ok r := by
  split_ifs at h ⊢
  · exact hx h
  · exact hy h

theorem Settles.congr {f g : ℕ → Check ε α} {r : α} (h : Settles g r)
    (hf : ∀ n, f n = g n) : Settles f r := by
  filter_upwards [h] with n hn
  rw [hf, hn]

/-- Under every sufficiently large budget the procedure returns, with one value. -/
def Completes (f : ℕ → Check ε α) : Prop := ∃ r, Settles f r

theorem Completes.of_ok {f : ℕ → Check ε α} {r : α} (h : ∀ n, f n = .ok r) : Completes f :=
  ⟨r, Settles.of_forall h⟩

theorem Completes.ite {c : Prop} [Decidable c] {f g : ℕ → Check ε α} (hf : c → Completes f)
    (hg : ¬ c → Completes g) : Completes (fun n => if c then f n else g n) := by
  by_cases h : c
  · simp only [if_pos h]
    exact hf h
  · simp only [if_neg h]
    exact hg h

theorem Completes.bind {f : ℕ → Check ε α} {g : ℕ → α → Check ε β} {a : α} (hf : Settles f a)
    (hg : Completes (fun n => g n a)) : Completes (fun n => f n >>= g n) := by
  obtain ⟨r, hr⟩ := hg
  exact ⟨r, hf.bind hr⟩

theorem Completes.bind_ok {x : Check ε α} {g : ℕ → α → Check ε β} {a : α} (hx : x = .ok a)
    (hg : Completes (fun n => g n a)) : Completes (fun n => x >>= g n) :=
  .bind (Settles.of_forall (fun _ => hx)) hg

theorem not_completes_of_same {f : ℕ → Check ε α} (h₀ : f 0 = exhaust)
    (hf : ∀ n, f (n + 1) = f n) : ¬ Completes f := by
  intro h
  obtain ⟨r, hr⟩ := h
  obtain ⟨n, hn⟩ := hr.exists_ok
  have hall : ∀ n, f n = exhaust := by
    intro n
    induction n with
    | zero => exact h₀
    | succ n ih => rw [hf, ih]
  exact exhaust_ne_ok r ((hall n).symm.trans hn)

def Stops (x : Check ε α) : Prop := x ≠ .error .exhausted

theorem Stops.ok (a : α) : Stops (.ok a : Check ε α) := by
  intro h
  cases h

theorem Stops.failed (site : ε) : Stops (.error (.failed site) : Check ε α) := by
  intro h
  cases h

theorem Stops.require (c : Prop) [Decidable c] (site : ε) : Stops (require c site) := by
  unfold BoundedRecursion.require
  split_ifs
  · exact .ok _
  · exact .failed site

theorem Stops.demand (x : Option α) (site : ε) : Stops (demand x site) := by
  cases x with
  | none => exact .failed site
  | some a => exact .ok a

theorem Stops.bind {x : Check ε α} {f : α → Check ε β} (hx : Stops x)
    (hf : ∀ a, x = .ok a → Stops (f a)) : Stops (x >>= f) := by
  match x, hx, hf with
  | .ok a, _, hf => exact hf a rfl
  | .error (.failed site), _, _ => exact .failed site
  | .error .exhausted, hx, _ => exact absurd rfl hx

theorem Stops.ite {c : Prop} [Decidable c] {x y : Check ε α} (hx : c → Stops x)
    (hy : ¬ c → Stops y) : Stops (if c then x else y) := by
  split_ifs with h
  · exact hx h
  · exact hy h

def Halts (f : ℕ → Check ε α) : Prop := ∃ x, Stops x ∧ ∀ᶠ n in atTop, f n = x

theorem Halts.of_stops {x : Check ε α} (hx : Stops x) : Halts (fun _ => x) :=
  ⟨x, hx, Eventually.of_forall fun _ => rfl⟩

theorem Halts.ite {c : Prop} [Decidable c] {f g : ℕ → Check ε α} (hf : c → Halts f)
    (hg : ¬ c → Halts g) : Halts (fun n => if c then f n else g n) := by
  by_cases h : c
  · simp only [if_pos h]
    exact hf h
  · simp only [if_neg h]
    exact hg h

theorem Halts.bind {f : ℕ → Check ε α} {g : ℕ → α → Check ε β} (hf : Halts f)
    (hg : ∀ a, Settles f a → Halts (fun n => g n a)) : Halts (fun n => f n >>= g n) := by
  obtain ⟨x, hx, hfx⟩ := hf
  match x, hx, hfx with
  | .ok a, _, hfa =>
      obtain ⟨y, hy, hgy⟩ := hg a hfa
      refine ⟨y, hy, ?_⟩
      filter_upwards [hfa, hgy] with n h₁ h₂
      rw [h₁, ok_bind, h₂]
  | .error (.failed site), _, hfx =>
      refine ⟨.error (.failed site), .failed site, ?_⟩
      filter_upwards [hfx] with n hn
      rw [hn]
      rfl
  | .error .exhausted, hx, _ => exact absurd rfl hx

theorem Halts.bind_stops {x : Check ε α} {g : ℕ → α → Check ε β} (hx : Stops x)
    (hg : ∀ a, x = .ok a → Halts (fun n => g n a)) : Halts (fun n => x >>= g n) := by
  refine .bind (.of_stops hx) (fun a ha => hg a ?_)
  obtain ⟨_, ha⟩ := ha.exists_ok
  exact ha

theorem Halts.succ {f g : ℕ → Check ε α} (h : Halts g) (hf : ∀ n, f (n + 1) = g n) :
    Halts f := by
  obtain ⟨x, hx, hgx⟩ := h
  obtain ⟨N, hN⟩ := eventually_atTop.mp hgx
  refine ⟨x, hx, eventually_atTop.mpr ⟨N + 1, ?_⟩⟩
  intro n hn
  obtain ⟨m, rfl⟩ : ∃ m, n = m + 1 := ⟨n - 1, by omega⟩
  rw [hf]
  exact hN m (by omega)

theorem Halts.congr {f g : ℕ → Check ε α} (h : Halts g) (hf : ∀ᶠ n in atTop, f n = g n) :
    Halts f := by
  obtain ⟨x, hx, hgx⟩ := h
  refine ⟨x, hx, ?_⟩
  filter_upwards [hf, hgx] with n h₁ h₂
  rw [h₁, h₂]

theorem Halts.shift {f g : ℕ → Check ε α} (h : Halts f) (hf : ∀ n, f (n + 1) = g n) :
    Halts g := by
  obtain ⟨x, hx, hfx⟩ := h
  refine ⟨x, hx, ?_⟩
  filter_upwards [(tendsto_add_atTop_nat 1).eventually hfx] with n hn
  rw [← hf, hn]

theorem not_halts_of_exhausted {f : ℕ → Check ε α} (h : ∀ᶠ n in atTop, f n = exhaust) :
    ¬ Halts f := by
  intro hf
  obtain ⟨x, hx, hfx⟩ := hf
  obtain ⟨n, h₁, h₂⟩ := (h.and hfx).exists
  exact hx (h₂.symm.trans h₁)

theorem Halts.relabel {δ : Type*} {f : ℕ → Check ε α} (h : Halts f) (site : ε → δ) :
    Halts (fun n => relabel site (f n)) := by
  obtain ⟨x, hx, hfx⟩ := h
  refine ⟨BoundedRecursion.relabel site x, ?_, ?_⟩
  · match x, hx with
    | .ok a, _ => exact .ok a
    | .error (.failed s), _ => exact .failed (site s)
    | .error .exhausted, hx => exact absurd rfl hx
  · filter_upwards [hfx] with n hn
    rw [hn]

end PaperNode.BoundedRecursion
