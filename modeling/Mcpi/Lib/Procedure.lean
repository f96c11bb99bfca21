/-!
# Procedures on a state that may throw

An `async` function, seen from the state it shares with the rest of the program: it changes
the state and returns or throws, and what it did before it threw stays done. `Spec` is a
Hoare triple with a postcondition for each of the two ways to end.
-/

def Procedure (ω ε α : Type) : Type := ω → Except ε α × ω

namespace Procedure

variable {ω ε α β : Type}

/-- Go on with the result, if there is one. -/
def andThen (x : Procedure ω ε α) (f : α → Procedure ω ε β) : Procedure ω ε β := fun w =>
  match x w with
  | (.ok a, w') => f a w'
  | (.error e, w') => (.error e, w')

instance : Monad (Procedure ω ε) where
  pure a := fun w => (.ok a, w)
  bind := andThen

/-- `throw` -/
def fail (e : ε) : Procedure ω ε α := fun w => (.error e, w)

/-- The state, or something read off it. -/
def read (f : ω → α) : Procedure ω ε α := fun w => (.ok (f w), w)

/-- Change the state. -/
def update (f : ω → ω) : Procedure ω ε Unit := fun w => (.ok (), f w)

/-- `try { return x } catch (error) { return handler(error) }` -/
def rescue (x : Procedure ω ε α) (handler : ε → Procedure ω ε α) : Procedure ω ε α := fun w =>
  match x w with
  | (.ok a, w') => (.ok a, w')
  | (.error e, w') => handler e w'

/-- `for (const a of list) await f(a)` -/
def forEach (f : α → Procedure ω ε Unit) : List α → Procedure ω ε Unit
  | [] => pure ()
  | a :: rest => do
      f a
      forEach f rest

/-! ## Triples -/

/-- From a state with `pre` the procedure returns in one with `post`, or throws in one with
`thrown`. -/
def Spec (pre : ω → Prop) (x : Procedure ω ε α) (post : α → ω → Prop) (thrown : ε → ω → Prop) : Prop :=
  ∀ w, pre w →
    match x w with
    | (.ok a, w') => post a w'
    | (.error e, w') => thrown e w'

/-- The procedure keeps a property of the state, whichever way it ends. -/
def Keeps (inv : ω → Prop) (x : Procedure ω ε α) : Prop :=
  Spec inv x (fun _ => inv) fun _ => inv

section Rules

variable {pre pre' mid : ω → Prop} {x : Procedure ω ε α} {f : α → Procedure ω ε β}
  {post post' : α → ω → Prop} {thrown thrown' : ε → ω → Prop}

theorem spec_consequence (h : Spec pre x post thrown) (hpre : ∀ w, pre' w → pre w)
    (hpost : ∀ a w, post a w → post' a w) (hthrown : ∀ e w, thrown e w → thrown' e w) :
    Spec pre' x post' thrown' := by
  intro w hw
  have hspec := h w (hpre w hw)
  split
  next heq => rw [heq] at hspec; exact hpost _ _ hspec
  next heq => rw [heq] at hspec; exact hthrown _ _ hspec

theorem spec_bind {post : β → ω → Prop} {mid : α → ω → Prop} (hx : Spec pre x mid thrown)
    (hf : ∀ a, Spec (mid a) (f a) post thrown) : Spec pre (x >>= f) post thrown := by
  intro w hw
  have hspec := hx w hw
  show match andThen x f w with | (.ok b, w') => post b w' | (.error e, w') => thrown e w'
  unfold andThen
  cases hrun : x w with
  | mk result w' =>
    rw [hrun] at hspec
    cases result with
    | ok a => exact hf a w' hspec
    | error e => exact hspec

theorem spec_rescue {handler : ε → Procedure ω ε α} (hx : Spec pre x post thrown')
    (hhandler : ∀ e, Spec (thrown' e) (handler e) post thrown) :
    Spec pre (rescue x handler) post thrown := by
  intro w hw
  have hspec := hx w hw
  unfold rescue
  cases hrun : x w with
  | mk result w' =>
    rw [hrun] at hspec
    cases result with
    | ok a => exact hspec
    | error e => exact hhandler e w' hspec

theorem spec_forEach {g : α → Procedure ω ε Unit} {inv : ω → Prop} (l : List α)
    (hg : ∀ a ∈ l, Spec inv (g a) (fun _ => inv) thrown) :
    Spec inv (forEach g l) (fun _ => inv) thrown := by
  induction l with
  | nil => exact fun _ hw => hw
  | cons a l ih =>
    exact spec_bind (hg a (by simp)) fun _ => ih fun b hb => hg b (by simp [hb])

end Rules

section Keeps

variable {inv : ω → Prop} {x : Procedure ω ε α} {f : α → Procedure ω ε β}

theorem keeps_pure (a : α) : Keeps inv (pure a : Procedure ω ε α) := fun _ hw => hw

theorem keeps_read (g : ω → α) : Keeps (ε := ε) inv (read g) := fun _ hw => hw

theorem keeps_bind (hx : Keeps inv x) (hf : ∀ a, Keeps inv (f a)) : Keeps inv (x >>= f) :=
  spec_bind hx hf

theorem keeps_rescue {handler : ε → Procedure ω ε α} (hx : Keeps inv x)
    (hhandler : ∀ e, Keeps inv (handler e)) : Keeps inv (rescue x handler) :=
  spec_rescue hx hhandler

end Keeps

end Procedure
