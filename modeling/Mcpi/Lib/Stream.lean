import Mcpi.Lib.Except

/-!
# Machines that are fed a stream

A machine takes one input at a time to its next state and some outputs, or stops with an
error. How the inputs are cut into chunks does not matter to it.
-/

namespace Stream

variable {σ α ω ε : Type} (step : σ → α → Except ε (σ × List ω))

/-- Take the inputs one by one, and collect the outputs. -/
def feed : σ → List α → Except ε (σ × List ω)
  | s, [] => .ok (s, [])
  | s, a :: inputs => do
      let (s, out) ← step s a
      let (s, outs) ← feed s inputs
      return (s, out ++ outs)

variable {inputs : List α}

theorem feed_cons_ok {s s' s'' : σ} {a : α} {out outs : List ω}
    (h : step s a = .ok (s', out)) (h' : feed step s' inputs = .ok (s'', outs)) :
    feed step s (a :: inputs) = .ok (s'', out ++ outs) := by
  rw [feed, h]
  show (feed step s' inputs >>= _) = _
  rw [h']
  rfl

/-- **The machine goes on where it was.** -/
theorem feed_append {s s' : σ} {outs : List ω} (h : feed step s inputs = .ok (s', outs)) (inputs' : List α) :
    feed step s (inputs ++ inputs') = (feed step s' inputs').map fun result => (result.1, outs ++ result.2) := by
  induction inputs generalizing s outs with
  | nil =>
    cases h
    rw [List.nil_append]
    cases feed step s' inputs' <;> rfl
  | cons a inputs ih =>
    obtain ⟨⟨s₁, out⟩, hstep, h⟩ := Except.bind_ok.mp h
    obtain ⟨⟨s₂, outs'⟩, hfeed, h⟩ := Except.bind_ok.mp h
    cases h
    rw [List.cons_append, feed, hstep]
    show (feed step s₁ (inputs ++ inputs') >>= _) = _
    rw [ih hfeed]
    cases feed step s' inputs' with
    | error e => rfl
    | ok result => simp [Except.map, bind, Except.bind, pure, Except.pure]

variable {inputs inputs' : List α}

theorem feed_append_ok {s s' s'' : σ} {outs outs' : List ω}
    (h : feed step s inputs = .ok (s', outs)) (h' : feed step s' inputs' = .ok (s'', outs')) :
    feed step s (inputs ++ inputs') = .ok (s'', outs ++ outs') := by
  rw [feed_append step h, h']
  rfl

/-- What was fed before an error does not matter to it. -/
theorem feed_append_error {s s' : σ} {outs : List ω} {e : ε}
    (h : feed step s inputs = .ok (s', outs)) (h' : feed step s' inputs' = .error e) :
    feed step s (inputs ++ inputs') = .error e := by
  rw [feed_append step h, h']
  rfl

/-- An error comes before anything that is fed behind it. -/
theorem feed_error_append {s : σ} {e : ε} (h : feed step s inputs = .error e)
    (inputs' : List α) : feed step s (inputs ++ inputs') = .error e := by
  induction inputs generalizing s with
  | nil => cases h
  | cons a inputs ih =>
    rw [List.cons_append, feed, Except.bind_error]
    rcases Except.bind_error.mp h with hstep | ⟨⟨s', out⟩, hstep, h⟩
    · exact .inl hstep
    · refine .inr ⟨(s', out), hstep, Except.bind_error.mpr ?_⟩
      rcases Except.bind_error.mp h with hfeed | ⟨_, _, h⟩
      · exact .inl (ih hfeed)
      · cases h

theorem feed_append_inv {s s'' : σ} {outs : List ω} (h : feed step s (inputs ++ inputs') = .ok (s'', outs)) :
    ∃ s' out out', feed step s inputs = .ok (s', out) ∧ feed step s' inputs' = .ok (s'', out') ∧
      outs = out ++ out' := by
  cases hfirst : feed step s inputs with
  | error e =>
    rw [feed_error_append step hfirst] at h
    cases h
  | ok result =>
    obtain ⟨s', out⟩ := result
    rw [feed_append step hfirst] at h
    cases hsecond : feed step s' inputs' with
    | error e =>
      rw [hsecond] at h
      cases h
    | ok result =>
      rw [hsecond] at h
      cases h
      exact ⟨s', out, result.2, rfl, hsecond, rfl⟩

end Stream
