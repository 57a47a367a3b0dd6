import StackScript.Machine

/-!
Postconditions of actions that change a state and may fail. One condition holds of the result and the state it
is reached in, the other of the failure and the state that it leaves.
-/
namespace StackScript

variable {ε σ α β : Type}

def Meets (x : EStateM ε σ α) (s : σ) (ok : α → σ → Prop) (bad : ε → σ → Prop) : Prop :=
  match x s with
  | .ok a t => ok a t
  | .error e t => bad e t

section

variable {x : EStateM ε σ α} {s : σ} {ok ok' : α → σ → Prop} {bad bad' : ε → σ → Prop}

theorem Meets.of_ok (h : Meets x s ok bad) {a : α} {t : σ} (e : x s = .ok a t) : ok a t := by
  unfold Meets at h
  rwa [e] at h

theorem Meets.of_error (h : Meets x s ok bad) {f : ε} {t : σ} (e : x s = .error f t) : bad f t := by
  unfold Meets at h
  rwa [e] at h

theorem Meets.mk (hok : ∀ a t, x s = .ok a t → ok a t) (hbad : ∀ e t, x s = .error e t → bad e t) :
    Meets x s ok bad := by
  unfold Meets
  cases h : x s with
  | ok a t => exact hok a t h
  | error e t => exact hbad e t h

theorem Meets.imp (h : Meets x s ok bad) (hok : ∀ a t, ok a t → ok' a t)
    (hbad : ∀ e t, bad e t → bad' e t) : Meets x s ok' bad' :=
  .mk (fun a t e => hok a t (h.of_ok e)) fun e t k => hbad e t (h.of_error k)

theorem Meets.and (h : Meets x s ok bad) (k : Meets x s ok' bad') :
    Meets x s (fun a t => ok a t ∧ ok' a t) fun e t => bad e t ∧ bad' e t :=
  .mk (fun _ _ e => ⟨h.of_ok e, k.of_ok e⟩) fun _ _ e => ⟨h.of_error e, k.of_error e⟩

@[simp] theorem meets_bind {f : α → EStateM ε σ β} {ok : β → σ → Prop} :
    Meets (x >>= f) s ok bad ↔ Meets x s (fun a t => Meets (f a) t ok bad) bad := by
  unfold Meets
  change (match EStateM.bind x f s with | .ok a t => ok a t | .error e t => bad e t) ↔ _
  unfold EStateM.bind
  cases x s <;> rfl

@[simp] theorem meets_map {f : α → β} {ok : β → σ → Prop} :
    Meets (f <$> x) s ok bad ↔ Meets x s (fun a t => ok (f a) t) bad := by
  unfold Meets
  change (match EStateM.map f x s with | .ok a t => ok a t | .error e t => bad e t) ↔ _
  unfold EStateM.map
  cases x s <;> rfl

@[simp] theorem meets_pure {a : α} : Meets (pure a) s ok bad ↔ ok a s := Iff.rfl

@[simp] theorem meets_throw {e : ε} : Meets (throw e) s ok bad ↔ bad e s := Iff.rfl

@[simp] theorem meets_get {ok : σ → σ → Prop} : Meets get s ok bad ↔ ok s s := Iff.rfl

@[simp] theorem meets_set {t : σ} {ok : PUnit → σ → Prop} : Meets (set t) s ok bad ↔ ok ⟨⟩ t := Iff.rfl

@[simp] theorem meets_modify {f : σ → σ} {ok : PUnit → σ → Prop} :
    Meets (modify f) s ok bad ↔ ok ⟨⟩ (f s) := Iff.rfl

/-- A failure is caught in the state that it left. -/
@[simp] theorem meets_tryCatch {handle : ε → EStateM ε σ α} :
    Meets (tryCatch x handle) s ok bad ↔ Meets x s ok fun e t => Meets (handle e) t ok bad := by
  unfold Meets
  change (match EStateM.tryCatch x handle s with | .ok a t => ok a t | .error e t => bad e t) ↔ _
  unfold EStateM.tryCatch
  cases x s <;> rfl

/-- An action met by what it is followed by. -/
theorem Meets.seq {f : α → EStateM ε σ β} {ok' : β → σ → Prop} (h : Meets x s ok bad)
    (k : ∀ a t, ok a t → Meets (f a) t ok' bad) : Meets (x >>= f) s ok' bad :=
  meets_bind.2 (h.imp k fun _ _ h => h)

/-- A condition on the items still to come carries a loop. -/
theorem Meets.forM {f : α → EStateM ε σ PUnit} (inv : List α → σ → Prop)
    (step : ∀ a as t, inv (a :: as) t → Meets (f a) t (fun _ u => inv as u) bad) :
    ∀ (as : List α) (s : σ), inv as s → Meets (as.forM f) s (fun _ t => inv [] t) bad
  | [], _, h => h
  | a :: as, s, h => (step a as s h).seq fun _ t k => Meets.forM inv step as t k

end

/-! ### Results and faults -/

section

variable {ε α β : Type} {x : Except ε α} {b : β} {e : ε}

theorem bind_eq_ok {f : α → Except ε β} : x >>= f = .ok b ↔ ∃ a, x = .ok a ∧ f a = .ok b := by
  cases x <;> simp [bind, Except.bind]

theorem bind_eq_error {f : α → Except ε β} : x >>= f = .error e ↔ x = .error e ∨ ∃ a, x = .ok a ∧ f a = .error e := by
  cases x <;> simp [bind, Except.bind]

theorem map_eq_ok {f : α → β} : x.map f = .ok b ↔ ∃ a, x = .ok a ∧ f a = b := by
  cases x <;> simp [Except.map]

theorem map_eq_error {f : α → β} : x.map f = .error e ↔ x = .error e := by
  cases x <;> simp [Except.map]

end

end StackScript
