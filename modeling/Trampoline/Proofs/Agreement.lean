import Trampoline.Body

/-!
Agreement of two computations.

Two outcomes agree when both return, with values and states in a given relation, or when both end
with the same error, in states that a second relation holds of. A trap on the left side is a broken
contract: nothing is asked of the right side then. A trap on the right side alone is allowed only to
agreements that tolerate it.
-/

namespace Trampoline

abbrev Outcome (w : Width) (σ α : Type) := EStateM.Result (Fault w RuntimeError) σ α

section

variable {ε σ α β : Type} {x : EStateM ε σ α} {f : α → EStateM ε σ β} {s s' : σ}

theorem bind_of_ok {a : α} (h : x s = .ok a s') : (x >>= f) s = f a s' := by
  simp only [Bind.bind, EStateM.bind, h]

theorem bind_of_error {e : ε} (h : x s = .error e s') : (x >>= f) s = .error e s' := by
  simp only [Bind.bind, EStateM.bind, h]

theorem of_except_bind_eq_ok {x : Except ε α} {f : α → Except ε β} {b : β}
    (h : x >>= f = .ok b) : ∃ a, x = .ok a ∧ f a = .ok b := by
  cases x with
  | ok a => exact ⟨a, rfl, h⟩
  | error e => cases h

/-- What returns in two stages returns in each. -/
theorem of_bind_eq_ok {b : β} (h : (x >>= f) s = .ok b s') :
    ∃ a t, x s = .ok a t ∧ f a t = .ok b s' := by
  cases hx : x s with
  | ok a t => exact ⟨a, t, rfl, (bind_of_ok hx).symm.trans h⟩
  | error e t => rw [bind_of_error hx] at h; cases h

/-- What fails in two stages fails in one of them. -/
theorem of_bind_eq_error {e : ε} (h : (x >>= f) s = .error e s') :
    x s = .error e s' ∨ ∃ a t, x s = .ok a t ∧ f a t = .error e s' := by
  cases hx : x s with
  | ok a t => exact .inr ⟨a, t, rfl, (bind_of_ok hx).symm.trans h⟩
  | error e' t =>
    rw [bind_of_error hx] at h
    cases h
    exact .inl rfl

end

/-- The two outcomes are related by `Q` if they are values, and by `E` if they are the same
error. The right one may be a trap if `T` holds. -/
def Agree {w : Width} {σ τ α β : Type} (T : Prop) (E : σ → τ → Prop)
    (Q : α → β → σ → τ → Prop) : Outcome w σ α → Outcome w τ β → Prop
  | .error (.trap _) _, _ => True
  | .ok a s, .ok b t => Q a b s t
  | .error (.error e) s, .error (.error f) t => e = f ∧ E s t
  | .error .unfinished s, .error .unfinished t => E s t
  | _, .error (.trap _) _ => T
  | _, _ => False

section

variable {w : Width} {σ α : Type}

def Traps (r : Outcome w σ α) : Prop := ∃ t s, r = .error (.trap t) s

/-- The outcome is a value, or an error of the program. -/
def Outcome.ended : Outcome w σ α → Bool
  | .ok _ _ => true
  | .error (.error _) _ => true
  | _ => false

def Outcome.state : Outcome w σ α → σ
  | .ok _ s => s
  | .error _ s => s

def Outcome.value? : Outcome w σ α → Option α
  | .ok a _ => some a
  | .error _ _ => none

def Outcome.trap? : Outcome w σ α → Option (Trap w)
  | .error (.trap t) _ => some t
  | _ => none

theorem Outcome.eq_ok {r : Outcome w σ α} {a : α} (h : r.value? = some a) : r = .ok a r.state := by
  cases r with
  | ok b s => cases h; rfl
  | error e s => cases h

theorem Outcome.eq_trap {r : Outcome w σ α} {t : Trap w} (h : r.trap? = some t) :
    r = .error (.trap t) r.state := by
  cases r with
  | ok b s => cases h
  | error e s =>
    cases e with
    | trap u => cases h; rfl
    | error e => cases h
    | unfinished => cases h

instance : (r : Outcome w σ α) → Decidable (Traps r)
  | .error (.trap t) s => isTrue ⟨t, s, rfl⟩
  | .ok _ _ => isFalse fun ⟨_, _, h⟩ => by cases h
  | .error (.error _) _ => isFalse fun ⟨_, _, h⟩ => by cases h
  | .error .unfinished _ => isFalse fun ⟨_, _, h⟩ => by cases h

end

namespace Agree

variable {w : Width} {σ τ α β γ δ : Type} {T : Prop} {E : σ → τ → Prop}
  {Q : α → β → σ → τ → Prop} {R : γ → δ → σ → τ → Prop}

theorem mono {Q' : α → β → σ → τ → Prop} {r : Outcome w σ α} {q : Outcome w τ β}
    (h : Agree T E Q r q) (hQ : ∀ a b s t, Q a b s t → Q' a b s t) : Agree T E Q' r q := by
  unfold Agree at h ⊢
  split at h <;> simp_all

/-- States left by errors may be compared more loosely. -/
theorem weaken {E' : σ → τ → Prop} {r : Outcome w σ α} {q : Outcome w τ β}
    (h : Agree T E Q r q) (hE : ∀ s t, E s t → E' s t) : Agree T E' Q r q := by
  unfold Agree at h ⊢
  split at h <;> simp_all

/-- Outcomes that agree are what they are. -/
theorem record {r : Outcome w σ α} {q : Outcome w τ β} (h : Agree T E Q r q) :
    Agree T E (fun a b s t => Q a b s t ∧ r = .ok a s ∧ q = .ok b t) r q := by
  unfold Agree at h ⊢
  split at h <;> simp_all

/-- An outcome agrees with itself. -/
theorem refl (r : Outcome w σ α) : Agree T Eq (fun a b s t => a = b ∧ s = t) r r := by
  cases r with
  | ok a s => exact ⟨rfl, rfl⟩
  | error e s => cases e <;> simp [Agree]

theorem trap_right {r : Outcome w σ α} {u : Trap w} {t : τ} (hT : T) :
    Agree T E Q r (.error (.trap u) t : Outcome w τ β) := by
  cases r with
  | ok a s => exact hT
  | error e s => cases e <;> first | exact hT | trivial

/-- What follows two values in the relation may rely on it. -/
theorem bind {x : EStateM (Fault w RuntimeError) σ α} {y : EStateM (Fault w RuntimeError) τ β}
    {f : α → EStateM (Fault w RuntimeError) σ γ} {g : β → EStateM (Fault w RuntimeError) τ δ}
    {s : σ} {t : τ} (h : Agree T E Q (x s) (y t))
    (hf : ∀ a b s' t', Q a b s' t' → Agree T E R (f a s') (g b t')) :
    Agree T E R ((x >>= f) s) ((y >>= g) t) := by
  simp only [Bind.bind, EStateM.bind]
  cases hxs : x s with
  | ok a s' =>
    cases hyt : y t with
    | ok b t' =>
      rw [hxs, hyt] at h
      exact hf a b s' t' h
    | error e t' =>
      rw [hxs, hyt] at h
      cases e with
      | trap u => exact trap_right h
      | error e => exact absurd h (by simp [Agree])
      | unfinished => exact absurd h (by simp [Agree])
  | error e s' =>
    cases e with
    | trap u => trivial
    | error e =>
      cases hyt : y t with
      | ok b t' => rw [hxs, hyt] at h; exact absurd h (by simp [Agree])
      | error f t' =>
        rw [hxs, hyt] at h
        cases f with
        | trap u => exact h
        | error f => exact h
        | unfinished => exact absurd h (by simp [Agree])
    | unfinished =>
      cases hyt : y t with
      | ok b t' => rw [hxs, hyt] at h; exact absurd h (by simp [Agree])
      | error f t' =>
        rw [hxs, hyt] at h
        cases f with
        | trap u => exact h
        | error f => exact absurd h (by simp [Agree])
        | unfinished => exact h

/-- Reading the state changes nothing. -/
theorem get {f : σ → EStateM (Fault w RuntimeError) σ γ}
    {g : τ → EStateM (Fault w RuntimeError) τ δ} {s : σ} {t : τ}
    (h : Agree T E R (f s s) (g t t)) :
    Agree T E R ((MonadState.get >>= f) s) ((MonadState.get >>= g) t) := h

/-- All ways in which two outcomes can agree. -/
theorem cases {r : Outcome w σ α} {q : Outcome w τ β} (h : Agree T E Q r q) :
    Traps r ∨ (T ∧ Traps q) ∨ (∃ a b s t, r = .ok a s ∧ q = .ok b t ∧ Q a b s t) ∨
      (∃ e s t, r = .error (.error e) s ∧ q = .error (.error e) t ∧ E s t) ∨
      ∃ s t, r = .error .unfinished s ∧ q = .error .unfinished t ∧ E s t := by
  unfold Agree at h
  split at h
  · exact .inl ⟨_, _, rfl⟩
  · exact .inr (.inr (.inl ⟨_, _, _, _, rfl, rfl, h⟩))
  · obtain ⟨rfl, hE⟩ := h
    exact .inr (.inr (.inr (.inl ⟨_, _, _, rfl, rfl, hE⟩)))
  · exact .inr (.inr (.inr (.inr ⟨_, _, rfl, rfl, h⟩)))
  · exact .inr (.inl ⟨h, _, _, rfl⟩)
  · exact h.elim

/-- An outcome that agrees strictly with another traps, or is the other. -/
theorem traps_or_eq {r q : Outcome w σ α}
    (h : Agree False Eq (fun a b s t => a = b ∧ s = t) r q) : Traps r ∨ r = q := by
  obtain htrap | ⟨hfalse, _⟩ | ⟨a, b, s, t, rfl, rfl, rfl, rfl⟩ | ⟨e, s, t, rfl, rfl, rfl⟩ |
    ⟨s, t, rfl, rfl, rfl⟩ := h.cases
  · exact .inl htrap
  · exact hfalse.elim
  all_goals exact .inr rfl

end Agree

/-- What may trap, in the middle of an operation. -/
theorem Agree.except {w : Width} {α β : Type} {E : Machine w → Machine w → Prop}
    {Q : α → β → Machine w → Machine w → Prop} {r : Except (Trap w) α} {q : Except (Trap w) β}
    {m n : Machine w} (h : ∀ a b, r = .ok a → q = .ok b → Q a b m n) :
    Agree True E Q ((liftM r : Op w α) m) ((liftM q : Op w β) n) := by
  cases r with
  | error t => trivial
  | ok a =>
    cases q with
    | error t => exact trap_right trivial
    | ok b => exact h a b rfl rfl

theorem Agree.bind_except {w : Width} {α β γ δ : Type} {E : Machine w → Machine w → Prop}
    {R : γ → δ → Machine w → Machine w → Prop} {r : Except (Trap w) α} {q : Except (Trap w) β}
    {f : α → Op w γ} {g : β → Op w δ} {m n : Machine w}
    (h : ∀ a b, r = .ok a → q = .ok b → Agree True E R (f a m) (g b n)) :
    Agree True E R (((liftM r : Op w α) >>= f) m) (((liftM q : Op w β) >>= g) n) := by
  refine Agree.bind (Agree.except fun a b ha hb => ⟨rfl, rfl, ha, hb⟩) ?_
    (Q := fun a b m' n' => m' = m ∧ n' = n ∧ r = .ok a ∧ q = .ok b)
  rintro a b _ _ ⟨rfl, rfl, ha, hb⟩
  exact h a b ha hb

/-- An operation of the machine in the middle of a body. -/
theorem Act.lift_apply {w : Width} {α : Type} (o : Op w α) (m : Machine w) (r : Registers w) :
    (liftM o : Act w α) ⟨m, r⟩ =
      match o m with
      | .ok a m => .ok a ⟨m, r⟩
      | .error e m => .error e ⟨m, r⟩ := rfl

/-- Operations that agree on machines agree on desks, and leave the registers alone. -/
theorem Agree.lift {w : Width} {α β : Type} {T : Prop} {E : Machine w → Machine w → Prop}
    {Q : α → β → Machine w → Machine w → Prop} {x : Op w α} {y : Op w β} {d e : Desk w}
    (h : Agree T E Q (x d.machine) (y e.machine)) :
    Agree T (fun d e => E d.machine e.machine)
      (fun a b d' e' => Q a b d'.machine e'.machine ∧ d'.registers = d.registers ∧
        e'.registers = e.registers)
      ((liftM x : Act w α) d) ((liftM y : Act w β) e) := by
  rw [Act.lift_apply, Act.lift_apply]
  cases hx : x d.machine with
  | ok a m =>
    cases hy : y e.machine with
    | ok b n =>
      rw [hx, hy] at h
      exact ⟨h, rfl, rfl⟩
    | error f n => rw [hx, hy] at h; cases f <;> exact h
  | error f m =>
    cases hy : y e.machine with
    | ok b n => rw [hx, hy] at h; cases f <;> exact h
    | error g n => rw [hx, hy] at h; cases f <;> cases g <;> exact h

end Trampoline
