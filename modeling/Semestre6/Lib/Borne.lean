/-
Computations that may throw and that a bound on their calls may cut short.

- `Calcul`: cut short, an exception or a value; `boucle`: a loop whose turns are such computations;
- `Bon Q x`: `x` throws nothing and what it gives, if anything, meets `Q`. The rules `bon_bind`, `bon_mapM` and
  `bon_boucle` (for an invariant) are those of weakest preconditions;
- `Rend Q x`: the value that `x` gives, if any, meets `Q`, with the same rules;
- `Prolonge x y`: `y` gives what `x` gives. A larger bound prolongs what is made of prolonged parts;
- `Accord R x y`: the same outcome up to `R`, with one rule for each way to build a computation.
-/
import Mathlib.Tactic

namespace Semestre6.Borne

variable {ε α β γ δ σ τ : Type}

abbrev Calcul (ε α : Type) := ExceptT ε Option α

/-- the bound is reached -/
def interrompu : Calcul ε α := ExceptT.mk none

/-- the turns give a result or the state of the next turn -/
def boucle (pas : σ → Calcul ε (α ⊕ σ)) : ℕ → σ → Calcul ε α
  | 0, _ => interrompu
  | k + 1, s => do
    match ← pas s with
    | .inl a => pure a
    | .inr s' => boucle pas k s'

theorem calcul_cases (x : Calcul ε α) : x = interrompu ∨ (∃ e, x = throw e) ∨ ∃ a, x = pure a := by
  match x with
  | none => exact .inl rfl
  | some (.error e) => exact .inr (.inl ⟨e, rfl⟩)
  | some (.ok a) => exact .inr (.inr ⟨a, rfl⟩)

@[simp] theorem run_interrompu : (interrompu : Calcul ε α).run = none := rfl

@[simp] theorem run_calcul_throw (e : ε) : (throw e : Calcul ε α).run = some (.error e) := rfl

@[simp] theorem run_calcul_pure (a : α) : (pure a : Calcul ε α).run = some (.ok a) := rfl

@[simp] theorem interrompu_bind (f : α → Calcul ε β) : (interrompu >>= f) = interrompu := rfl

@[simp] theorem throw_calcul_bind (e : ε) (f : α → Calcul ε β) : ((throw e : Calcul ε α) >>= f) = throw e := rfl

@[simp] theorem liftM_error (e : ε) : (liftM (.error e : Except ε α) : Calcul ε α) = throw e := rfl

@[simp] theorem liftM_ok (a : α) : (liftM (.ok a : Except ε α) : Calcul ε α) = pure a := rfl

theorem liftM_bind (e : Except ε α) (f : α → Except ε β) :
    (liftM (e >>= f) : Calcul ε β) = liftM e >>= fun a => liftM (f a) := by
  cases e <;> rfl

theorem liftM_map (e : Except ε α) (f : α → β) : (liftM (e.map f) : Calcul ε β) = f <$> liftM e := by
  cases e <;> rfl

theorem liftM_mapM (f : α → Except ε β) (l : List α) :
    (liftM (l.mapM f) : Calcul ε (List β)) = l.mapM fun a => liftM (f a) := by
  induction l with
  | nil => rfl
  | cons a l ih => simp only [List.mapM_cons, liftM_bind, ih]; rfl

theorem liftM_inj {e e' : Except ε α} (h : (liftM e : Calcul ε α) = liftM e') : e = e' := Option.some.inj h

/-! ## What a computation gives -/

def Bon (Q : α → Prop) (x : Calcul ε α) : Prop := ∀ r, x.run = some r → ∃ a, r = .ok a ∧ Q a

variable {Q Q' : α → Prop} {x y : Calcul ε α} {f g : α → Calcul ε β}

@[simp] theorem bon_interrompu : Bon Q (interrompu : Calcul ε α) := by
  intro r h
  cases h

@[simp] theorem bon_throw {e : ε} : ¬Bon Q (throw e : Calcul ε α) := by
  intro h
  obtain ⟨a, ha, -⟩ := h _ rfl
  cases ha

@[simp] theorem bon_pure {a : α} : Bon Q (pure a : Calcul ε α) ↔ Q a := by
  apply Iff.intro
  · intro h
    obtain ⟨b, hb, hq⟩ := h _ rfl
    obtain rfl := Except.ok.inj hb
    exact hq
  · intro h r hr
    exact ⟨a, (Option.some.inj hr).symm, h⟩

@[simp] theorem bon_bind {Q : β → Prop} : Bon Q (x >>= f) ↔ Bon (fun a => Bon Q (f a)) x := by
  rcases calcul_cases x with rfl | ⟨e, rfl⟩ | ⟨a, rfl⟩ <;> simp

theorem Bon.mono (h : Bon Q x) (hQ : ∀ a, Q a → Q' a) : Bon Q' x := by
  intro r hr
  obtain ⟨a, ha, hq⟩ := h r hr
  exact ⟨a, ha, hQ a hq⟩

theorem Bon.avec (h : Bon Q x) : Bon (fun a => x.run = some (.ok a) ∧ Q a) x := by
  intro r hr
  obtain ⟨a, rfl, hq⟩ := h r hr
  exact ⟨a, rfl, hr, hq⟩

@[simp] theorem bon_liftM {e : Except ε α} : Bon Q (liftM e : Calcul ε α) ↔ ∃ a, e = .ok a ∧ Q a := by
  cases e <;> simp

/-- an element is only treated when those before it have given their values -/
theorem bon_mapM {R : α → β → Prop} {l : List α}
    (h : ∀ avant a apres bs, l = avant ++ a :: apres → List.Forall₂ R avant bs → Bon (R a) (f a)) :
    Bon (List.Forall₂ R l) (l.mapM f) := by
  induction l with
  | nil => simp
  | cons a l ih =>
    rw [List.mapM_cons]
    simp only [bon_bind, bon_pure]
    refine (h [] a l [] rfl .nil).mono ?_
    intro b hb
    refine Bon.mono (ih ?_) fun bs hbs => .cons hb hbs
    intro avant c apres bs hl hbs
    exact h (a :: avant) c apres (b :: bs) (by rw [hl]; rfl) (.cons hb hbs)

/-- the rule for an invariant of the turns -/
theorem bon_boucle {pas : σ → Calcul ε (α ⊕ σ)} {Inv : σ → Prop} (hpas : ∀ s, Inv s → Bon (Sum.elim Q Inv) (pas s))
    (k : ℕ) {s : σ} (h : Inv s) : Bon Q (boucle pas k s) := by
  induction k generalizing s with
  | zero => simp [boucle]
  | succ k ih =>
    rw [boucle, bon_bind]
    refine (hpas s h).mono ?_
    rintro (a | s') hr
    · exact bon_pure.2 hr
    · exact ih hr

/-! ## What it gives when it does not throw -/

def Rend (Q : α → Prop) (x : Calcul ε α) : Prop := ∀ a, x.run = some (.ok a) → Q a

@[simp] theorem rend_interrompu : Rend Q (interrompu : Calcul ε α) := by
  intro a h
  cases h

@[simp] theorem rend_throw {e : ε} : Rend Q (throw e : Calcul ε α) := by
  intro a h
  cases h

@[simp] theorem rend_pure {a : α} : Rend Q (pure a : Calcul ε α) ↔ Q a := by
  apply Iff.intro
  · intro h
    exact h a rfl
  · intro h b hb
    obtain rfl := Except.ok.inj (Option.some.inj hb)
    exact h

@[simp] theorem rend_bind {Q : β → Prop} : Rend Q (x >>= f) ↔ Rend (fun a => Rend Q (f a)) x := by
  rcases calcul_cases x with rfl | ⟨e, rfl⟩ | ⟨a, rfl⟩ <;> simp

theorem Rend.mono (h : Rend Q x) (hQ : ∀ a, Q a → Q' a) : Rend Q' x := fun a ha => hQ a (h a ha)

theorem rend_mapM {R : α → β → Prop} {l : List α} (h : ∀ a ∈ l, Rend (R a) (f a)) :
    Rend (List.Forall₂ R l) (l.mapM f) := by
  induction l with
  | nil => simp
  | cons a l ih =>
    rw [List.mapM_cons]
    obtain ⟨ha, hl⟩ := List.forall_mem_cons.1 h
    simp only [rend_bind, rend_pure]
    refine ha.mono ?_
    intro b hb
    exact (ih hl).mono fun bs hbs => .cons hb hbs

theorem rend_boucle {pas : σ → Calcul ε (α ⊕ σ)} {Inv : σ → Prop} (hpas : ∀ s, Inv s → Rend (Sum.elim Q Inv) (pas s))
    (k : ℕ) {s : σ} (h : Inv s) : Rend Q (boucle pas k s) := by
  induction k generalizing s with
  | zero => simp [boucle]
  | succ k ih =>
    rw [boucle, rend_bind]
    refine (hpas s h).mono ?_
    rintro (a | s') hr
    · exact rend_pure.2 hr
    · exact ih hr

/-! ## Larger bounds -/

def Prolonge (x y : Calcul ε α) : Prop := ∀ r, x.run = some r → y.run = some r

theorem Prolonge.refl (x : Calcul ε α) : Prolonge x x := fun _ h => h

theorem Prolonge.interrompu (x : Calcul ε α) : Prolonge interrompu x := by
  intro r h
  cases h

theorem Bon.of_prolonge (h : Bon Q y) (hxy : Prolonge x y) : Bon Q x := fun r hr => h r (hxy r hr)

theorem Prolonge.bind (h : Prolonge x y) (hf : ∀ a, Prolonge (f a) (g a)) : Prolonge (x >>= f) (y >>= g) := by
  rcases calcul_cases x with rfl | ⟨e, rfl⟩ | ⟨a, rfl⟩
  · exact .interrompu _
  · obtain rfl : y = throw e := h _ rfl
    exact .refl _
  · obtain rfl : y = pure a := h _ rfl
    simpa using hf a

theorem Prolonge.mapM (l : List α) (h : ∀ a, Prolonge (f a) (g a)) : Prolonge (l.mapM f) (l.mapM g) := by
  induction l with
  | nil => exact .refl _
  | cons a l ih =>
    rw [List.mapM_cons, List.mapM_cons]
    exact (h a).bind fun b => ih.bind fun bs => .refl _

theorem Prolonge.boucle {pas pas' : σ → Calcul ε (α ⊕ σ)} (h : ∀ s, Prolonge (pas s) (pas' s)) {k l : ℕ} (hkl : k ≤ l)
    (s : σ) : Prolonge (boucle pas k s) (boucle pas' l s) := by
  induction k generalizing l s with
  | zero => exact .interrompu _
  | succ k ih =>
    obtain ⟨l, rfl⟩ := Nat.exists_eq_succ_of_ne_zero (by omega : l ≠ 0)
    refine (h s).bind ?_
    rintro (a | s')
    · exact .refl _
    · exact ih (by omega) s'

/-! ## The same outcome -/

/-- `R` relates the values, the exceptions are equal, and one is cut short when the other is -/
inductive Accord (R : α → β → Prop) : Calcul ε α → Calcul ε β → Prop
  | interrompu : Accord R interrompu interrompu
  | throw (e : ε) : Accord R (throw e) (throw e)
  | pure {a : α} {b : β} (h : R a b) : Accord R (pure a) (pure b)

variable {R : α → β → Prop} {S : γ → δ → Prop}

theorem Accord.bind {x : Calcul ε α} {y : Calcul ε β} {f : α → Calcul ε γ} {g : β → Calcul ε δ} (h : Accord R x y)
    (hf : ∀ a b, R a b → Accord S (f a) (g b)) : Accord S (x >>= f) (y >>= g) := by
  cases h with
  | interrompu => exact .interrompu
  | throw e => exact .throw e
  | pure h => simpa using hf _ _ h

theorem Accord.mono {R' : α → β → Prop} {x : Calcul ε α} {y : Calcul ε β} (h : Accord R x y)
    (hR : ∀ a b, R a b → R' a b) : Accord R' x y := by
  cases h with
  | interrompu => exact .interrompu
  | throw e => exact .throw e
  | pure h => exact .pure (hR _ _ h)

theorem Accord.refl {R : α → α → Prop} (hR : ∀ a, R a a) (x : Calcul ε α) : Accord R x x := by
  rcases calcul_cases x with rfl | ⟨e, rfl⟩ | ⟨a, rfl⟩
  · exact .interrompu
  · exact .throw e
  · exact .pure (hR a)

theorem Accord.eq_map {g : α → β} {x : Calcul ε α} {y : Calcul ε β} (h : Accord (fun a b => b = g a) x y) :
    y = g <$> x := by
  cases h with
  | interrompu => rfl
  | throw e => rfl
  | pure h => rw [h]; rfl

theorem Accord.map {f : α → γ} {g : β → δ} {x : Calcul ε α} {y : Calcul ε β} (h : Accord R x y)
    (hf : ∀ a b, R a b → S (f a) (g b)) : Accord S (f <$> x) (g <$> y) := by
  cases h with
  | interrompu => exact .interrompu
  | throw e => exact .throw e
  | pure h => exact .pure (hf _ _ h)

theorem Accord.eq {x y : Calcul ε α} (h : Accord Eq x y) : x = y := by
  cases h with
  | interrompu => rfl
  | throw e => rfl
  | pure h => rw [h]

theorem Accord.mapM {f : α → Calcul ε γ} {g : β → Calcul ε δ} {l : List α} {l' : List β} (h : List.Forall₂ R l l')
    (hf : ∀ a b, R a b → Accord S (f a) (g b)) : Accord (List.Forall₂ S) (l.mapM f) (l'.mapM g) := by
  induction h with
  | nil => exact .pure .nil
  | cons hr hl ih =>
    rw [List.mapM_cons, List.mapM_cons]
    refine (hf _ _ hr).bind ?_
    intro c d hcd
    exact ih.bind fun cs ds hs => .pure (.cons hcd hs)

theorem Accord.boucle {T : σ → τ → Prop} {pas : σ → Calcul ε (α ⊕ σ)} {pas' : τ → Calcul ε (β ⊕ τ)}
    (h : ∀ s t, T s t → Accord (Sum.LiftRel R T) (pas s) (pas' t)) (k : ℕ) {s : σ} {t : τ} (hst : T s t) :
    Accord R (boucle pas k s) (boucle pas' k t) := by
  induction k generalizing s t with
  | zero => exact .interrompu
  | succ k ih =>
    refine (h s t hst).bind ?_
    rintro _ _ (hr | ht)
    · exact .pure hr
    · exact ih ht

end Semestre6.Borne
