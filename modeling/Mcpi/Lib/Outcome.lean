import Mcpi.Lib.Procedure

/-!
# Outcomes of procedures that can be stopped

States that are `stopped` stay so, and what a procedure returns in one does not matter.
`Yields` is what it can return otherwise; it is `Settled` where that is at most one value,
whatever state it is run in.
-/

namespace Procedure

variable {ω ε α β : Type} {stopped : ω → Prop} {x : Procedure ω ε α} {f : α → Procedure ω ε β}

theorem bind_ok {w w' : ω} {b : β} (h : (x >>= f) w = (.ok b, w')) :
    ∃ a w₁, x w = (.ok a, w₁) ∧ f a w₁ = (.ok b, w') := by
  have hrun : andThen x f w = (.ok b, w') := h
  unfold andThen at hrun
  rcases hx : x w with ⟨_ | a, w₁⟩
  · rw [hx] at hrun
    cases hrun
  · rw [hx] at hrun
    exact ⟨a, w₁, rfl, hrun⟩

theorem bind_of_ok {w w₁ : ω} {a : α} (h : x w = (.ok a, w₁)) : (x >>= f) w = f a w₁ := by
  show andThen x f w = _
  unfold andThen
  rw [h]

theorem bind_of_error {w w₁ : ω} {e : ε} (h : x w = (.error e, w₁)) : (x >>= f) w = (.error e, w₁) := by
  show andThen x f w = _
  unfold andThen
  rw [h]

theorem keeps_state {inv : ω → Prop} (h : Keeps inv x) {w : ω} (hw : inv w) : inv (x w).2 := by
  have hspec := h w hw
  rcases hx : x w with ⟨_ | a, w₁⟩ <;> rw [hx] at hspec <;> exact hspec

/-- A stop before the second part is a stop after it. -/
theorem live_of_bind (hstays : ∀ a, Keeps stopped (f a)) {w w₁ : ω} {a : α}
    (hx : x w = (.ok a, w₁)) (h : ¬ stopped ((x >>= f) w).2) : ¬ stopped w₁ := by
  rw [bind_of_ok hx] at h
  exact fun hw => h (keeps_state (hstays a) hw)

/-! ## What is returned -/

/-- Where it is not stopped, the procedure returns something with the property. -/
structure Sound (stopped : ω → Prop) (x : Procedure ω ε α) (Q : α → Prop) : Prop where
  stays : Keeps stopped x
  result : ∀ w a w', x w = (.ok a, w') → ¬ stopped w' → Q a

def Yields (stopped : ω → Prop) (x : Procedure ω ε α) (a : α) : Prop :=
  ∃ w w', x w = (.ok a, w') ∧ ¬ stopped w'

theorem sound_yields (hstays : Keeps stopped x) : Sound stopped x (Yields stopped x) :=
  ⟨hstays, fun w _ w' h hlive => ⟨w, w', h, hlive⟩⟩

variable {Q : α → Prop}

theorem sound_pure {a : α} (h : Q a) : Sound stopped (pure a : Procedure ω ε α) Q :=
  ⟨keeps_pure a, by rintro w _ w' ⟨⟩ _; exact h⟩

theorem Sound.mono {Q R : α → Prop} (hx : Sound stopped x Q) (h : ∀ a, Q a → R a) : Sound stopped x R :=
  ⟨hx.stays, fun w a w' hrun hlive => h a (hx.result w a w' hrun hlive)⟩

/-- The second part is sound after what the first one can have returned. -/
theorem Sound.bind_of {S : β → Prop} (hx : Sound stopped x Q)
    (hstays : ∀ a, Keeps stopped (f a)) (hf : ∀ a, Q a → Sound stopped (f a) S) :
    Sound stopped (x >>= f) S := by
  refine ⟨keeps_bind hx.stays hstays, fun w b w' hrun hlive => ?_⟩
  obtain ⟨a, w₁, hfirst, hsecond⟩ := bind_ok hrun
  have hlive₁ : ¬ stopped w₁ := by
    refine live_of_bind hstays hfirst ?_
    rw [hrun]
    exact hlive
  exact (hf a (hx.result w a w₁ hfirst hlive₁)).result w₁ b w' hsecond hlive

theorem Sound.bind {S : β → Prop} (hx : Sound stopped x Q)
    (hf : ∀ a, Sound stopped (f a) fun b => Q a → S b) : Sound stopped (x >>= f) S :=
  hx.bind_of (fun a => (hf a).stays) fun a ha => (hf a).mono fun _ h => h ha

theorem Sound.rescue {handler : ε → Procedure ω ε α} (hx : Sound stopped x Q)
    (hhandler : ∀ e, Sound stopped (handler e) Q) : Sound stopped (rescue x handler) Q := by
  refine ⟨keeps_rescue hx.stays fun e => (hhandler e).stays, fun w a w' hrun hlive => ?_⟩
  unfold Procedure.rescue at hrun
  rcases hx' : x w with ⟨e | a', w₁⟩
  · rw [hx'] at hrun
    exact (hhandler e).result w₁ a w' hrun hlive
  · rw [hx'] at hrun
    cases hrun
    exact hx.result w a w' hx' hlive

theorem Yields.bind {b : β} (h : Yields stopped (x >>= f) b) (hstays : ∀ a, Keeps stopped (f a)) :
    ∃ a, Yields stopped x a ∧ Yields stopped (f a) b := by
  obtain ⟨w, w', hrun, hlive⟩ := h
  obtain ⟨a, w₁, hfirst, hsecond⟩ := bind_ok hrun
  refine ⟨a, ⟨w, w₁, hfirst, live_of_bind hstays hfirst ?_⟩, w₁, w', hsecond, hlive⟩
  rw [hrun]
  exact hlive

/-! ## Procedures with one outcome -/

/-- At most one value is returned. -/
def Settled (stopped : ω → Prop) (x : Procedure ω ε α) : Prop :=
  ∀ a b, Yields stopped x a → Yields stopped x b → a = b

/-- The procedure ends in one way, by returning or by throwing. -/
def Determined (stopped : ω → Prop) (x : Procedure ω ε α) : Prop :=
  ∀ w₁ w₂, ¬ stopped (x w₁).2 → ¬ stopped (x w₂).2 → (x w₁).1 = (x w₂).1

theorem Determined.settled (h : Determined stopped x) : Settled stopped x := by
  rintro a b ⟨w₁, w₁', h₁, hlive₁⟩ ⟨w₂, w₂', h₂, hlive₂⟩
  have hsame := h w₁ w₂ (by rwa [h₁]) (by rwa [h₂])
  rw [h₁, h₂] at hsame
  exact Except.ok.inj hsame

theorem settled_pure (a : α) : Settled stopped (pure a : Procedure ω ε α) := by
  rintro _ _ ⟨_, _, ⟨⟩, _⟩ ⟨_, _, ⟨⟩, _⟩
  rfl

theorem settled_unit {x : Procedure ω ε Unit} : Settled stopped x := fun _ _ _ _ => rfl

theorem settled_bind (hx : Settled stopped x) (hf : ∀ a, Settled stopped (f a))
    (hstays : ∀ a, Keeps stopped (f a)) : Settled stopped (x >>= f) := by
  intro b c hb hc
  obtain ⟨a, ha, hb⟩ := hb.bind hstays
  obtain ⟨a', ha', hc⟩ := hc.bind hstays
  obtain rfl := hx a a' ha ha'
  exact hf a b c hb hc

theorem determined_pure (a : α) : Determined stopped (pure a : Procedure ω ε α) :=
  fun _ _ _ _ => rfl

theorem determined_bind (hx : Determined stopped x) (hf : ∀ a, Determined stopped (f a))
    (hstays : ∀ a, Keeps stopped (f a)) : Determined stopped (x >>= f) := by
  intro w₁ w₂ hlive₁ hlive₂
  rcases h₁ : x w₁ with ⟨r₁, w₁'⟩
  rcases h₂ : x w₂ with ⟨r₂, w₂'⟩
  -- where the first part throws, the state it leaves is the last one
  have hlive : ∀ {w w' r}, x w = (r, w') → ¬ stopped ((x >>= f) w).2 → ¬ stopped (x w).2 := by
    intro w w' r h hlive
    cases r with
    | ok a =>
      rw [h]
      exact live_of_bind hstays h hlive
    | error e =>
      rw [bind_of_error h] at hlive
      rw [h]
      exact hlive
  have hsame := hx w₁ w₂ (hlive h₁ hlive₁) (hlive h₂ hlive₂)
  rw [h₁, h₂] at hsame
  obtain rfl : r₁ = r₂ := hsame
  cases r₁ with
  | ok a =>
    rw [bind_of_ok h₁] at hlive₁ ⊢
    rw [bind_of_ok h₂] at hlive₂ ⊢
    exact hf a w₁' w₂' hlive₁ hlive₂
  | error e => rw [bind_of_error h₁, bind_of_error h₂]

theorem determined_rescue {handler : ε → Procedure ω ε α} (hx : Determined stopped x)
    (hhandler : ∀ e, Determined stopped (handler e)) (hstays : ∀ e, Keeps stopped (handler e)) :
    Determined stopped (rescue x handler) := by
  intro w₁ w₂ hlive₁ hlive₂
  have hreturn : ∀ {w w' a}, x w = (.ok a, w') → rescue x handler w = (.ok a, w') := by
    intro w w' a h
    unfold rescue
    rw [h]
  have hthrow : ∀ {w w' e}, x w = (.error e, w') → rescue x handler w = handler e w' := by
    intro w w' e h
    unfold rescue
    rw [h]
  have hlive : ∀ {w w' r}, x w = (r, w') → ¬ stopped (rescue x handler w).2 → ¬ stopped (x w).2 := by
    intro w w' r h hlive
    rw [h]
    cases r with
    | ok a =>
      rw [hreturn h] at hlive
      exact hlive
    | error e =>
      rw [hthrow h] at hlive
      exact fun hw => hlive (keeps_state (hstays e) hw)
  rcases h₁ : x w₁ with ⟨r₁, w₁'⟩
  rcases h₂ : x w₂ with ⟨r₂, w₂'⟩
  have hsame := hx w₁ w₂ (hlive h₁ hlive₁) (hlive h₂ hlive₂)
  rw [h₁, h₂] at hsame
  obtain rfl : r₁ = r₂ := hsame
  cases r₁ with
  | ok a => rw [hreturn h₁, hreturn h₂]
  | error e =>
    rw [hthrow h₁] at hlive₁ ⊢
    rw [hthrow h₂] at hlive₂ ⊢
    exact hhandler e w₁' w₂' hlive₁ hlive₂

end Procedure
