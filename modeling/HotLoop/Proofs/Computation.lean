import HotLoop.Stop
import Mathlib.Order.Defs.Unbundled

/-!
# Computations that may stop

Optimizer passes and compile calls change a state and may stop early, with the state kept as it was
at the stop. The rules below take such a computation apart: what a sequence of two has done when it
has succeeded, and what it has done when it has stopped.
-/

namespace HotLoop

variable {ε σ α β : Type} {s t : σ}

/-- What a computation answers, and the state that it leaves, when it starts at `s`. -/
def runFrom (x : ExceptT ε (StateM σ) α) (s : σ) : Except ε α × σ := x s

/-- The second part of a sequence runs where the first one has left off, if it has not stopped. -/
theorem runFrom_bind (x : ExceptT ε (StateM σ) α) (f : α → ExceptT ε (StateM σ) β) :
    runFrom (x >>= f) s = match (runFrom x s).1 with
      | .ok a => runFrom (f a) (runFrom x s).2
      | .error e => (.error e, (runFrom x s).2) := by
  simp only [runFrom, bind, ExceptT.bind, ExceptT.mk, StateT.bind]
  rcases x s with ⟨_ | a, u⟩ <;> rfl

/-- A sequence succeeds exactly when both of its parts do. -/
theorem runFrom_bind_eq_ok {x : ExceptT ε (StateM σ) α} {f : α → ExceptT ε (StateM σ) β} {b : β} :
    runFrom (x >>= f) s = (.ok b, t) ↔
      ∃ a u, runFrom x s = (.ok a, u) ∧ runFrom (f a) u = (.ok b, t) := by
  rw [runFrom_bind]
  rcases runFrom x s with ⟨_ | a, u⟩
  · simp
  · simp [and_assoc]

/-- A sequence stops where its first part does, or else where its second part does. -/
theorem runFrom_bind_eq_error {x : ExceptT ε (StateM σ) α} {f : α → ExceptT ε (StateM σ) β}
    {e : ε} :
    runFrom (x >>= f) s = (.error e, t) ↔
      runFrom x s = (.error e, t) ∨
        ∃ a u, runFrom x s = (.ok a, u) ∧ runFrom (f a) u = (.error e, t) := by
  rw [runFrom_bind]
  rcases runFrom x s with ⟨_ | a, u⟩
  · simp
  · simp [and_assoc]

@[simp] theorem runFrom_pure (a : α) :
    runFrom (pure a : ExceptT ε (StateM σ) α) s = (.ok a, s) := rfl

@[simp] theorem runFrom_throw (e : ε) :
    runFrom (throw e : ExceptT ε (StateM σ) α) s = (.error e, s) := rfl

@[simp] theorem runFrom_get :
    runFrom (get : ExceptT ε (StateM σ) σ) s = (.ok s, s) := rfl

@[simp] theorem runFrom_set (u : σ) :
    runFrom (set u : ExceptT ε (StateM σ) PUnit) s = (.ok ⟨⟩, u) := rfl

@[simp] theorem runFrom_modify (f : σ → σ) :
    runFrom (modify f : ExceptT ε (StateM σ) PUnit) s = (.ok ⟨⟩, f s) := rfl

/-- A loop over a list succeeds exactly when every round does. -/
theorem runFrom_forM_cons_eq_ok {f : α → ExceptT ε (StateM σ) PUnit} {a : α} {l : List α} :
    runFrom ((a :: l).forM f) s = (.ok ⟨⟩, t) ↔
      ∃ u, runFrom (f a) s = (.ok ⟨⟩, u) ∧ runFrom (l.forM f) u = (.ok ⟨⟩, t) := by
  rw [List.forM, runFrom_bind_eq_ok]
  exact ⟨fun ⟨_, u, h⟩ => ⟨u, h⟩, fun ⟨u, h⟩ => ⟨⟨⟩, u, h⟩⟩

/-- A loop over a list stops in its first round, or else in a later one. -/
theorem runFrom_forM_cons_eq_error {f : α → ExceptT ε (StateM σ) PUnit} {a : α} {l : List α}
    {e : ε} :
    runFrom ((a :: l).forM f) s = (.error e, t) ↔ runFrom (f a) s = (.error e, t) ∨
      ∃ u, runFrom (f a) s = (.ok ⟨⟩, u) ∧ runFrom (l.forM f) u = (.error e, t) := by
  rw [List.forM, runFrom_bind_eq_error]
  exact or_congr_right ⟨fun ⟨_, u, h⟩ => ⟨u, h⟩, fun ⟨u, h⟩ => ⟨⟨⟩, u, h⟩⟩

/--
However a computation ends that starts at `s`, it goes on to a state that is related to `s`, and it
stops in none of the given ways.
-/
def Goes (R : σ → σ → Prop) (P : ε → Prop) (x : ExceptT ε (StateM σ) α) (s : σ) : Prop :=
  R s (runFrom x s).2 ∧ ∀ e, (runFrom x s).1 = .error e → ¬ P e

namespace Goes

variable {R : σ → σ → Prop} {P : ε → Prop}

/--
The rest is judged from where the sequence has started, and knows what its first part answers.
-/
theorem bind_from {x : ExceptT ε (StateM σ) α} {f : α → ExceptT ε (StateM σ) β}
    (hx : Goes R P x s) (hf : ∀ a t, runFrom x s = (.ok a, t) → R s t →
      R s (runFrom (f a) t).2 ∧ ∀ e, (runFrom (f a) t).1 = .error e → ¬ P e) :
    Goes R P (x >>= f) s := by
  unfold Goes
  rw [runFrom_bind]
  obtain ⟨hR, hstop⟩ := hx
  cases hrun : runFrom x s with
  | mk answer t =>
    rw [hrun] at hR hstop
    cases answer with
    | error e =>
      refine ⟨hR, fun e' he' => ?_⟩
      cases he'
      exact hstop e rfl
    | ok a => exact hf a t hrun hR

theorem bind [IsTrans σ R] {x : ExceptT ε (StateM σ) α} {f : α → ExceptT ε (StateM σ) β}
    (hx : Goes R P x s) (hf : ∀ a t, R s t → Goes R P (f a) t) : Goes R P (x >>= f) s :=
  hx.bind_from fun a t _ hR => ⟨IsTrans.trans _ _ _ hR (hf a t hR).1, (hf a t hR).2⟩

/-- The rest knows what the first part answers. -/
theorem bind_run [IsTrans σ R] {x : ExceptT ε (StateM σ) α} {f : α → ExceptT ε (StateM σ) β}
    (hx : Goes R P x s) (hf : ∀ a t, runFrom x s = (.ok a, t) → Goes R P (f a) t) :
    Goes R P (x >>= f) s :=
  hx.bind_from fun a t hrun hR => ⟨IsTrans.trans _ _ _ hR (hf a t hrun).1, (hf a t hrun).2⟩

theorem bind_of_eq [IsTrans σ R] {x : ExceptT ε (StateM σ) α} {f : α → ExceptT ε (StateM σ) β}
    {a : α} (hx : runFrom x s = (.ok a, t)) (hR : R s t) (hf : Goes R P (f a) t) :
    Goes R P (x >>= f) s := by
  unfold Goes
  rw [runFrom_bind, hx]
  exact ⟨IsTrans.trans _ _ _ hR hf.1, hf.2⟩

theorem get_bind {f : σ → ExceptT ε (StateM σ) β} (hf : Goes R P (f s) s) :
    Goes R P (MonadState.get >>= f) s := hf

theorem pure [Std.Refl R] (a : α) : Goes R P (Pure.pure a : ExceptT ε (StateM σ) α) s :=
  ⟨Std.Refl.refl s, fun _ h => by cases h⟩

theorem throw [Std.Refl R] {e : ε} (he : ¬ P e) :
    Goes R P (MonadExcept.throw e : ExceptT ε (StateM σ) α) s :=
  ⟨Std.Refl.refl s, fun _ h => by cases h; exact he⟩

theorem throw_bind [Std.Refl R] {e : ε} {f : α → ExceptT ε (StateM σ) β} (he : ¬ P e) :
    Goes R P (MonadExcept.throw e >>= f) s :=
  ⟨Std.Refl.refl s, fun _ h => by cases h; exact he⟩

theorem set {u : σ} (h : R s u) :
    Goes R P (MonadStateOf.set u : ExceptT ε (StateM σ) PUnit) s :=
  ⟨h, fun _ h => by cases h⟩

theorem modify {f : σ → σ} (h : R s (f s)) :
    Goes R P (MonadState.modifyGet fun s => (PUnit.unit, f s) : ExceptT ε (StateM σ) PUnit) s :=
  ⟨h, fun _ h => by cases h⟩

theorem forM_from [Std.Refl R] [IsTrans σ R] {f : α → ExceptT ε (StateM σ) PUnit} {l : List α}
    (h : ∀ a ∈ l, ∀ t, R s t → Goes R P (f a) t) : Goes R P (l.forM f) s := by
  induction l generalizing s with
  | nil => exact pure _
  | cons a l ih =>
    exact (h a (List.mem_cons_self ..) s (Std.Refl.refl s)).bind fun _ t hst =>
      ih fun b hb u htu => h b (List.mem_cons_of_mem _ hb) u (IsTrans.trans _ _ _ hst htu)

theorem forM [Std.Refl R] [IsTrans σ R] {f : α → ExceptT ε (StateM σ) PUnit} {l : List α}
    (h : ∀ a ∈ l, ∀ s, Goes R P (f a) s) : Goes R P (l.forM f) s :=
  forM_from fun a ha t _ => h a ha t

/-- It matters less how the computation stops. -/
theorem mono {Q : ε → Prop} {x : ExceptT ε (StateM σ) α} (h : Goes R P x s) (hPQ : ∀ e, Q e → P e) :
    Goes R Q x s :=
  ⟨h.1, fun e he hQ => h.2 e he (hPQ e hQ)⟩

theorem weaken {R' : σ → σ → Prop} {x : ExceptT ε (StateM σ) α} (h : Goes R P x s)
    (hR : ∀ s t, R s t → R' s t) : Goes R' P x s :=
  ⟨hR _ _ h.1, h.2⟩

end Goes

def Anyhow (_ _ : σ) : Prop := True

instance : Std.Refl (Anyhow (σ := σ)) := ⟨fun _ => trivial⟩

instance : IsTrans σ Anyhow := ⟨fun _ _ _ _ _ => trivial⟩

/-- A computation that starts at `s` stops in none of the given ways. -/
abbrev Avoids (P : ε → Prop) (x : ExceptT ε (StateM σ) α) (s : σ) : Prop := Goes Anyhow P x s

theorem Goes.avoids {R : σ → σ → Prop} {P : ε → Prop} {x : ExceptT ε (StateM σ) α}
    (h : Goes R P x s) : Avoids P x s :=
  ⟨trivial, h.2⟩

/-- What does not stop in the one way does not stop in the other either, if the rest is avoided. -/
theorem Goes.avoiding {R : σ → σ → Prop} {P Q : ε → Prop} {x : ExceptT ε (StateM σ) α}
    (h : Goes R Q x s) (h' : Avoids (fun e => P e ∧ ¬ Q e) x s) : Goes R P x s :=
  ⟨h.1, fun e he hP => h'.2 e he ⟨hP, h.2 e he⟩⟩

namespace Avoids

variable {P : ε → Prop} {x : ExceptT ε (StateM σ) α}

theorem of_ok {a : α} (h : runFrom x s = (.ok a, t)) : Avoids P x s :=
  ⟨trivial, fun e he => by rw [h] at he; cases he⟩

end Avoids

end HotLoop
