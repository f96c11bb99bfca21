import Mcpi.Ai.ResolveAuth

/-!
# Rotated credentials

A refresh replaces the credential that it was called with, so the store has to hold the new one when the
lock is released. It does, exactly along the runs in which no call has been aborted when it comes to write
the answer of its refresh.
-/

namespace Mcpi.Ai.Auth

/-! ## The invariant -/

/-- The phases under the lock. -/
def Phase.critical : Phase → Bool
  | .refreshing _ => true
  | .answered _ _ => true
  | .leaving _ => true
  | _ => false

/-- What a call knows about the store in its phase. -/
def Call.PhaseOk (s : State) (call : Call) : Prop :=
  match call.phase with
  | .start => call.answer = none
  | .reading => call.answer = none
  | .waiting => call.answer = none
  | .resolvingKey (.stored key) => .api_key key ∈ call.held
  | .resolvingKey _ => True
  | .refreshing current =>
    s.store = some (.oauth current) ∧ current.issue ∉ s.replaced ∧ call.answer = none
  | .answered current next =>
    s.store = some (.oauth current) ∧ next.issue ∉ s.replaced ∧ current.issue ∈ s.replaced ∧
      next.issue < s.issued ∧ call.answer = some next
  | .leaving post =>
    (∀ next, call.answer = some next → s.store = some (.oauth next)) ∧
      ∀ credential, post = some (some (.oauth credential)) → .oauth credential ∈ call.held
  | .toAuth credential => .oauth credential ∈ call.held
  | .done => True

/-- The auth of a call has been derived from a credential that the store held for it. -/
def Call.OutcomeOk (call : Call) : Prop :=
  (∀ credential, call.outcome = some (.resolved (some (.oauth credential))) → .oauth credential ∈ call.held) ∧
    ∀ key, call.outcome = some (.resolved (some (.apiKey (.stored key)))) → .api_key key ∈ call.held

/-- **The invariant.** One call at a time is under the lock, and only there is the credential in the store
one that has been replaced. -/
structure Inv (s : State) : Prop where
  critical : ∀ i, (s.calls i).phase.critical = true ↔ s.lock = some i
  issued : ∀ credential, s.store = some (.oauth credential) → credential.issue < s.issued
  replaced : ∀ n ∈ s.replaced, n < s.issued
  current : ∀ credential, s.store = some (.oauth credential) → credential.issue ∈ s.replaced →
    ∃ i next, (s.calls i).phase = .answered credential next
  phases : ∀ i, (s.calls i).PhaseOk s
  outcomes : ∀ i, (s.calls i).OutcomeOk
  loggedOut : s.loggedOut = true → s.store = none

theorem Call.PhaseOk.frame {s t : State} {call : Call} (h : call.PhaseOk s) (hsame : call.phase.critical = true →
      t.store = s.store ∧ t.replaced = s.replaced ∧ t.issued = s.issued) : call.PhaseOk t := by
  unfold Call.PhaseOk at h ⊢
  cases hphase : call.phase with
  | start | reading | waiting | toAuth credential | done =>
    rw [hphase] at h
    exact h
  | resolvingKey source =>
    rw [hphase] at h
    cases source <;> exact h
  | refreshing current =>
    rw [hphase] at h hsame
    obtain ⟨hstore, hreplaced, -⟩ := hsame rfl
    rw [hstore, hreplaced]
    exact h
  | answered current next =>
    rw [hphase] at h hsame
    obtain ⟨hstore, hreplaced, hissued⟩ := hsame rfl
    rw [hstore, hreplaced, hissued]
    exact h
  | leaving post =>
    rw [hphase] at h hsame
    obtain ⟨hstore, -, -⟩ := hsame rfl
    rw [hstore]
    exact h

/-! ## Changes of one call -/

section Steps

variable {s t : State} {i : Nat} {call : Call}

@[simp] theorem calls_set_self (t : State) (i : Nat) (call : Call) :
    (t.set i call).calls i = call := if_pos rfl

theorem calls_set_ne (t : State) {i j : Nat} (call : Call) (h : j ≠ i) :
    (t.set i call).calls j = t.calls j := if_neg h

/-- **One call moves on.** -/
theorem Inv.set (h : Inv s) (hcalls : t.calls = s.calls) (hcritical : call.phase.critical = true ↔ t.lock = some i)
    (hlock : ∀ j, j ≠ i → (t.lock = some j ↔ s.lock = some j))
    (hissued : ∀ credential, t.store = some (.oauth credential) → credential.issue < t.issued)
    (hreplaced : ∀ n ∈ t.replaced, n < t.issued)
    (hcurrent : ∀ credential, t.store = some (.oauth credential) →
      credential.issue ∈ t.replaced → (∃ next, call.phase = .answered credential next) ∨
        ∃ j next, j ≠ i ∧ (s.calls j).phase = .answered credential next)
    (hphase : call.PhaseOk t) (houtcome : call.OutcomeOk)
    (hframe : ∀ j, j ≠ i → (s.calls j).phase.critical = true →
      t.store = s.store ∧ t.replaced = s.replaced ∧ t.issued = s.issued)
    (hloggedOut : t.loggedOut = true → t.store = none) : Inv (t.set i call) := by
  refine ⟨fun j => ?_, hissued, hreplaced, fun credential hstore hmem => ?_, fun j => ?_, fun j => ?_, hloggedOut⟩
  · by_cases hj : j = i
    · subst hj
      rw [calls_set_self]
      exact hcritical
    · rw [calls_set_ne t call hj, hcalls]
      exact (h.critical j).trans (hlock j hj).symm
  · rcases hcurrent credential hstore hmem with ⟨next, hnext⟩ | ⟨j, next, hj, hnext⟩
    · refine ⟨i, next, ?_⟩
      rw [calls_set_self]
      exact hnext
    · refine ⟨j, next, ?_⟩
      rw [calls_set_ne t call hj, hcalls]
      exact hnext
  · by_cases hj : j = i
    · subst hj
      rw [calls_set_self]
      exact hphase.frame fun _ => ⟨rfl, rfl, rfl⟩
    · rw [calls_set_ne t call hj, hcalls]
      exact (h.phases j).frame fun hc => hframe j hj hc
  · by_cases hj : j = i
    · subst hj
      rw [calls_set_self]
      exact houtcome
    · rw [calls_set_ne t call hj, hcalls]
      exact h.outcomes j

theorem Inv.phaseOk (h : Inv s) {phase : Phase} (hphase : (s.calls i).phase = phase) :
    Call.PhaseOk s { s.calls i with phase } := by
  subst hphase
  exact h.phases i

theorem Inv.move (h : Inv s) (hbefore : (s.calls i).phase.critical = false)
    (hafter : call.phase.critical = false) (hphase : call.PhaseOk s) (houtcome : call.OutcomeOk) :
    Inv (s.set i call) := by
  have hfree : s.lock ≠ some i := by
    intro hheld
    rw [(h.critical i).mpr hheld] at hbefore
    cases hbefore
  refine h.set rfl ?_ (fun _ _ => Iff.rfl) h.issued h.replaced ?_ hphase houtcome
    (fun _ _ _ => ⟨rfl, rfl, rfl⟩) h.loggedOut
  · rw [hafter]
    exact ⟨nofun, fun hheld => absurd hheld hfree⟩
  · intro credential hstore hmem
    obtain ⟨j, next, hnext⟩ := h.current credential hstore hmem
    refine .inr ⟨j, next, ?_, hnext⟩
    rintro rfl
    rw [hnext] at hbefore
    cases hbefore

theorem Inv.alone (h : Inv s) (hcritical : (s.calls i).phase.critical = true) {j : Nat} (hj : j ≠ i)
    (hother : (s.calls j).phase.critical = true) : False := by
  have hi := (h.critical i).mp hcritical
  rw [(h.critical j).mp hother] at hi
  exact hj (Option.some.inj hi)

theorem Call.OutcomeOk.settle {outcome : Outcome} (h : call.OutcomeOk)
    (hoauth : ∀ credential, outcome = .resolved (some (.oauth credential)) → .oauth credential ∈ call.held)
    (hkey : ∀ key, outcome = .resolved (some (.apiKey (.stored key))) → .api_key key ∈ call.held) :
    (call.settle outcome).OutcomeOk := by
  unfold Call.settle
  refine ⟨fun credential hresult => ?_, fun key hresult => ?_⟩
  · cases hbefore : call.outcome with
    | none =>
      simp only [hbefore, Option.none_or] at hresult
      exact hoauth credential (Option.some.inj hresult)
    | some before =>
      simp only [hbefore, Option.some_or] at hresult
      exact h.1 credential (hbefore.trans hresult)
  · cases hbefore : call.outcome with
    | none =>
      simp only [hbefore, Option.none_or] at hresult
      exact hkey key (Option.some.inj hresult)
    | some before =>
      simp only [hbefore, Option.some_or] at hresult
      exact h.2 key (hbefore.trans hresult)

theorem Inv.settle (h : Inv s) {outcome : Outcome} (hbefore : (s.calls i).phase.critical = false)
    (hcall : call.OutcomeOk)
    (hoauth : ∀ credential, outcome = .resolved (some (.oauth credential)) → .oauth credential ∈ call.held)
    (hkey : ∀ key, outcome = .resolved (some (.apiKey (.stored key))) → .api_key key ∈ call.held) :
    Inv (s.set i (call.settle outcome)) :=
  h.move hbefore rfl trivial (hcall.settle hoauth hkey)

theorem Call.OutcomeOk.held (h : call.OutcomeOk) (more : List Credential) (phase : Phase) :
    Call.OutcomeOk { call with phase, held := more ++ call.held } :=
  ⟨fun credential hresult => List.mem_append_right _ (h.1 credential hresult),
    fun key hresult => List.mem_append_right _ (h.2 key hresult)⟩

end Steps

/-! ## Steps -/

section Kept

variable {provider : ProviderAuth} {overrides : Nat → AuthResolutionOverrides} {s s' : State} {i : Nat}

variable (h : Inv s)
include h

theorem Inv.startCall (hstep : start provider overrides s i = some s') : Inv s' := by
  have hok := h.outcomes i
  obtain ⟨hphase, hstep⟩ := Option.ite_none_right_eq_some.mp hstep
  have hbefore : (s.calls i).phase.critical = false := by
    rw [hphase]
    rfl
  have hanswer : (s.calls i).answer = none := h.phaseOk hphase
  split at hstep
  · cases hstep
    exact h.settle hbefore hok nofun nofun
  · split at hstep
    · cases hstep
      exact h.move hbefore rfl trivial hok
    · cases hstep
      exact h.move hbefore rfl hanswer hok

theorem Inv.read {now : Int} (hstep : read provider overrides s i now = some s') : Inv s' := by
  have hok := h.outcomes i
  obtain ⟨hphase, hstep⟩ := Option.ite_none_right_eq_some.mp hstep
  have hbefore : (s.calls i).phase.critical = false := by
    rw [hphase]
    rfl
  have hanswer : (s.calls i).answer = none := h.phaseOk hphase
  split at hstep
  · cases hstep
    exact h.settle hbefore hok nofun nofun
  · split at hstep
    · split at hstep
      · cases hstep
        exact h.move hbefore rfl trivial hok
      · cases hstep
        exact h.settle hbefore hok nofun nofun
    next stored hstored =>
      split at hstep
      next credential =>
        have hseen := hok.held [.oauth credential]
        split at hstep
        · split at hstep
          · cases hstep
            exact h.move hbefore rfl hanswer (hseen _)
          · cases hstep
            exact h.move hbefore rfl List.mem_cons_self (hseen _)
        · cases hstep
          exact h.settle hbefore (hseen _) nofun nofun
      next key =>
        have hseen := hok.held [.api_key key]
        split at hstep
        · cases hstep
          exact h.move hbefore rfl List.mem_cons_self (hseen _)
        · cases hstep
          exact h.settle hbefore (hseen _) nofun nofun

theorem Inv.resolveKey {outcome : KeyOutcome} (hstep : resolveKey s i outcome = some s') : Inv s' := by
  have hok := h.outcomes i
  unfold Auth.resolveKey at hstep
  dsimp only at hstep
  split at hstep
  next source hphase =>
    cases hstep
    have hbefore : (s.calls i).phase.critical = false := by
      rw [hphase]
      rfl
    refine h.settle hbefore hok ?_ ?_
    · cases outcome <;> nofun
    · intro key hkey
      cases outcome with
      | auth =>
        cases hkey
        exact h.phaseOk hphase
      | undefined => cases hkey
      | failed => cases hkey
  · cases hstep

theorem Inv.enter {call : Call} (hfree : s.lock = none)
    (hafter : call.phase.critical = true) (hphase : call.PhaseOk s) (houtcome : call.OutcomeOk) :
    Inv ({ s with lock := some i }.set i call) := by
  refine h.set rfl ⟨fun _ => rfl, fun _ => hafter⟩ ?_ h.issued h.replaced ?_ ?_ houtcome
    (fun _ _ _ => ⟨rfl, rfl, rfl⟩) h.loggedOut
  · intro j hj
    rw [hfree]
    exact ⟨fun hsame => absurd (Option.some.inj hsame).symm hj, nofun⟩
  · intro credential hstore hmem
    obtain ⟨j, next, hnext⟩ := h.current credential hstore hmem
    have hheld := (h.critical j).mp (by rw [hnext]; rfl)
    rw [hfree] at hheld
    cases hheld
  · exact hphase.frame fun _ => ⟨rfl, rfl, rfl⟩

theorem Inv.takeLock {now : Int} (hstep : lock overrides s i now = some s') : Inv s' := by
  have hok := h.outcomes i
  unfold Auth.lock at hstep
  dsimp only at hstep
  split at hstep
  next hwaiting =>
    obtain ⟨hphase, hfree⟩ := hwaiting
    have hanswer : (s.calls i).answer = none := h.phaseOk hphase
    have hnone : ∀ next, (s.calls i).answer = some next → s.store = some (.oauth next) := by
      intro next hsome
      rw [hanswer] at hsome
      cases hsome
    split at hstep
    · cases hstep
      exact h.enter hfree rfl ⟨hnone, nofun⟩ hok
    · have hseen := hok.held s.store.toList
      split at hstep
      next current hstore =>
        split at hstep
        · cases hstep
          refine h.enter hfree rfl ⟨hstore, fun hmem => ?_, hanswer⟩ (hseen _)
          obtain ⟨j, next, hnext⟩ := h.current current hstore hmem
          have hheld := (h.critical j).mp (by rw [hnext]; rfl)
          rw [hfree] at hheld
          cases hheld
        · cases hstep
          refine h.enter hfree rfl ⟨hnone, fun credential hpost => ?_⟩ (hseen _)
          have hcredential := Option.some.inj hpost
          show _ ∈ s.store.toList ++ _
          rw [hcredential]
          exact List.mem_cons_self
      · cases hstep
        refine h.enter hfree rfl ⟨hnone, fun credential hpost => ?_⟩ (hseen _)
        have hcredential := Option.some.inj hpost
        show _ ∈ s.store.toList ++ _
        rw [hcredential]
        exact List.mem_cons_self
  · cases hstep

theorem Inv.giveUp (hstep : giveUp s i = some s') : Inv s' := by
  obtain ⟨hwaiting, ⟨⟩⟩ := Option.ite_none_right_eq_some.mp hstep
  refine h.settle ?_ (h.outcomes i) nofun nofun
  rw [hwaiting.1]
  rfl

theorem Inv.refreshed {expires : Int} (hstep : refreshed s i expires = some s') : Inv s' := by
  unfold Auth.refreshed at hstep
  dsimp only at hstep
  split at hstep
  next current hphase =>
    cases hstep
    have hcritical : (s.calls i).phase.critical = true := by
      rw [hphase]
      rfl
    obtain ⟨hstore, hfresh, -⟩ := h.phaseOk hphase
    have hheld := (h.critical i).mp hcritical
    have hlt := h.issued current hstore
    refine h.set rfl ⟨fun _ => hheld, fun _ => rfl⟩ (fun _ _ => Iff.rfl) ?_ ?_ ?_ ?_ ?_ ?_
      h.loggedOut
    · exact fun credential hcredential => Nat.lt_succ_of_lt (h.issued credential hcredential)
    · intro n hn
      rcases List.mem_cons.mp hn with rfl | hmem
      · exact Nat.lt_succ_of_lt hlt
      · exact Nat.lt_succ_of_lt (h.replaced n hmem)
    · intro credential hcredential _
      change s.store = _ at hcredential
      obtain rfl : current = credential := by
        rw [hstore] at hcredential
        exact Credential.oauth.inj (Option.some.inj hcredential)
      exact .inl ⟨_, rfl⟩
    · refine ⟨hstore, fun hmem => ?_, List.mem_cons_self, Nat.lt_succ_self _, rfl⟩
      rcases List.mem_cons.mp hmem with hsame | hmem
      · exact Nat.ne_of_gt hlt hsame
      · exact Nat.lt_irrefl _ (h.replaced _ hmem)
    · exact h.outcomes i
    · exact fun j hj hother => (h.alone hcritical hj hother).elim
  · cases hstep

theorem Inv.refreshFailed (hstep : refreshFailed s i = some s') : Inv s' := by
  unfold Auth.refreshFailed at hstep
  dsimp only at hstep
  split at hstep
  next current hphase =>
    cases hstep
    have hcritical : (s.calls i).phase.critical = true := by
      rw [hphase]
      rfl
    obtain ⟨hstore, hfresh, hanswer⟩ := h.phaseOk hphase
    have hheld := (h.critical i).mp hcritical
    refine h.set rfl ⟨fun _ => hheld, fun _ => rfl⟩ (fun _ _ => Iff.rfl) h.issued h.replaced ?_ ?_
      (h.outcomes i) (fun _ _ _ => ⟨rfl, rfl, rfl⟩) h.loggedOut
    · intro credential hcredential hmem
      rw [hstore] at hcredential
      cases hcredential
      exact absurd hmem hfresh
    · refine ⟨fun next hnext => ?_, nofun⟩
      change (s.calls i).answer = some next at hnext
      rw [hanswer] at hnext
      cases hnext
  · cases hstep

/-- **The answer of a refresh is written.** -/
theorem Inv.write (hclean : (s.calls i).aborted = false) (hstep : write s i = some s') : Inv s' := by
  unfold Auth.write at hstep
  dsimp only at hstep
  split at hstep
  next current next hphase =>
    rw [if_neg (by rw [hclean]; exact Bool.false_ne_true)] at hstep
    cases hstep
    have hcritical : (s.calls i).phase.critical = true := by
      rw [hphase]
      rfl
    obtain ⟨hstore, hfresh, -, hlt, hanswer⟩ := h.phaseOk hphase
    have hheld := (h.critical i).mp hcritical
    refine h.set rfl ⟨fun _ => hheld, fun _ => rfl⟩ (fun _ _ => Iff.rfl) ?_ h.replaced ?_ ?_
      ((h.outcomes i).held [.oauth next] (.leaving (some (some (.oauth next))))) ?_ ?_
    · intro credential hcredential
      cases hcredential
      exact hlt
    · intro credential hcredential hmem
      cases hcredential
      exact absurd hmem hfresh
    · refine ⟨fun next' hnext => ?_, fun credential hpost => ?_⟩
      · change (s.calls i).answer = some next' at hnext
        rw [hanswer] at hnext
        cases hnext
        rfl
      · cases hpost
        exact List.mem_cons_self
    · exact fun j hj hother => (h.alone hcritical hj hother).elim
    · intro hout
      have hnone := h.loggedOut hout
      rw [hstore] at hnone
      cases hnone
  · cases hstep

theorem Inv.leave {call : Call} {post : Option (Option Credential)}
    (hbefore : (s.calls i).phase = .leaving post)
    (hafter : call.phase.critical = false) (hphase : call.PhaseOk s) (houtcome : call.OutcomeOk) :
    Inv ({ s with lock := none }.set i call) := by
  have hcritical : (s.calls i).phase.critical = true := by
    rw [hbefore]
    rfl
  refine h.set rfl ?_ ?_ h.issued h.replaced ?_ ?_ houtcome (fun _ _ _ => ⟨rfl, rfl, rfl⟩)
    h.loggedOut
  · rw [hafter]
    exact ⟨nofun, nofun⟩
  · intro j hj
    refine ⟨nofun, fun hheld => ?_⟩
    exact (h.alone hcritical hj ((h.critical j).mpr hheld)).elim
  · intro credential hstore hmem
    obtain ⟨j, next, hnext⟩ := h.current credential hstore hmem
    by_cases hj : j = i
    · subst hj
      rw [hbefore] at hnext
      cases hnext
    · exact (h.alone hcritical hj (by rw [hnext]; rfl)).elim
  · exact hphase.frame fun _ => ⟨rfl, rfl, rfl⟩

theorem Inv.release {now : Int} (hstep : release overrides s i now = some s') : Inv s' := by
  have hok := h.outcomes i
  unfold Auth.release at hstep
  dsimp only at hstep
  split at hstep
  next post hphase =>
    split at hstep
    · cases hstep
      exact h.leave hphase rfl trivial (hok.settle nofun nofun)
    next credential =>
      split at hstep
      · cases hstep
        exact h.leave hphase rfl trivial (hok.settle nofun nofun)
      · cases hstep
        exact h.leave hphase rfl ((h.phaseOk hphase).2 credential rfl) hok
    · cases hstep
      exact h.leave hphase rfl trivial (hok.settle nofun nofun)
  · cases hstep

theorem Inv.derived {ok : Bool} (hstep : derived s i ok = some s') : Inv s' := by
  unfold Auth.derived at hstep
  dsimp only at hstep
  split at hstep
  next credential hphase =>
    cases hstep
    have hbefore : (s.calls i).phase.critical = false := by
      rw [hphase]
      rfl
    cases ok with
    | true =>
      refine h.settle hbefore (h.outcomes i) ?_ nofun
      intro credential' hresult
      cases hresult
      exact h.phaseOk hphase
    | false => exact h.settle hbefore (h.outcomes i) nofun nofun
  · cases hstep

theorem Inv.abort (hstep : abort s i = some s') : Inv s' := by
  cases hstep
  have hok := h.outcomes i
  refine h.set rfl (h.critical i) (fun _ _ => Iff.rfl) h.issued h.replaced ?_ ?_ ?_
    (fun _ _ _ => ⟨rfl, rfl, rfl⟩) h.loggedOut
  · intro credential hstore hmem
    obtain ⟨j, next, hnext⟩ := h.current credential hstore hmem
    by_cases hj : j = i
    · subst hj
      exact .inl ⟨next, hnext⟩
    · exact .inr ⟨j, next, hj, hnext⟩
  · exact h.phases i
  · have hsettled : ((s.calls i).settle .rejected).OutcomeOk := hok.settle nofun nofun
    exact hsettled

theorem Inv.logout (hstep : logout s = some s') : Inv s' := by
  obtain ⟨hfree, ⟨⟩⟩ := Option.ite_none_right_eq_some.mp hstep
  refine ⟨h.critical, nofun, h.replaced, nofun, fun j => ?_, h.outcomes, fun _ => rfl⟩
  refine (h.phases j).frame fun hcritical => ?_
  have hheld := (h.critical j).mp hcritical
  rw [hfree] at hheld
  cases hheld

end Kept

/-! ## Runs -/

/-- **The property**: a new credential is in the store when the lock is released, `oauth.refresh` is not
called with one that has been replaced, nothing is written back after a logout, and the auth of a call
comes from a credential that the store held for it. -/
structure Sound (s : State) : Prop where
  kept : ∀ i post next, (s.calls i).phase = .leaving post → (s.calls i).answer = some next →
    s.store = some (.oauth next)
  notReused : ∀ i current, (s.calls i).phase = .refreshing current → current.issue ∉ s.replaced
  loggedOut : s.loggedOut = true → s.store = none
  derived : ∀ i credential, (s.calls i).outcome = some (.resolved (some (.oauth credential))) →
      .oauth credential ∈ (s.calls i).held
  resolvedKey : ∀ i key, (s.calls i).outcome = some (.resolved (some (.apiKey (.stored key)))) →
    .api_key key ∈ (s.calls i).held

/-- The call whose refresh has been answered has not been aborted when it comes to write. -/
def NotAborted (s : State) : Event → Prop
  | .write i => (s.calls i).aborted = false
  | _ => True

instance (s : State) (event : Event) : Decidable (NotAborted s event) := by
  unfold NotAborted
  split <;> infer_instance

theorem Inv.sound {s : State} (h : Inv s) : Sound s := by
  refine ⟨fun i post next hphase hanswer => ?_, fun i current hphase => ?_, h.loggedOut,
    fun i => (h.outcomes i).1, fun i => (h.outcomes i).2⟩
  · exact (h.phaseOk hphase).1 next hanswer
  · exact (h.phaseOk hphase).2.1

theorem inv_start (store : Option Credential) : Inv (.start store) := by
  refine ⟨fun i => ⟨nofun, nofun⟩, ?_, nofun, nofun, fun i => rfl, fun i => ⟨nofun, nofun⟩, nofun⟩
  intro credential hstore
  change store = _ at hstore
  subst hstore
  exact Nat.lt_succ_self _

section Runs

variable {provider : ProviderAuth} {overrides : Nat → AuthResolutionOverrides}

theorem Inv.step {s s' : State} {event : Event} (h : Inv s) (hclean : NotAborted s event)
    (hstep : step provider overrides s event = some s') : Inv s' := by
  cases event with
  | start i => exact h.startCall hstep
  | read i now => exact h.read hstep
  | resolveKey i outcome => exact h.resolveKey hstep
  | lock i now => exact h.takeLock hstep
  | giveUp i => exact h.giveUp hstep
  | refreshed i expires => exact h.refreshed hstep
  | refreshFailed i => exact h.refreshFailed hstep
  | write i => exact h.write hclean hstep
  | release i now => exact h.release hstep
  | derived i ok => exact h.derived hstep
  | abort i => exact h.abort hstep
  | logout => exact h.logout hstep

/-- **The answer of a call that has been aborted is lost**: the store still holds what has been replaced. -/
theorem Inv.lost {s s' : State} {event : Event} (h : Inv s) (hdirty : ¬ NotAborted s event)
    (hstep : Auth.step provider overrides s event = some s') : ¬ Sound s' := by
  cases event with
  | write i =>
    have haborted : (s.calls i).aborted = true := (Bool.not_eq_false _).mp hdirty
    unfold Auth.step Auth.write at hstep
    dsimp only at hstep
    split at hstep
    next current next hphase =>
      rw [if_pos haborted] at hstep
      cases hstep
      obtain ⟨hstore, hfresh, hmem, -, hanswer⟩ := h.phaseOk hphase
      intro hsound
      have hkept := hsound.kept i none next (by rw [calls_set_self]) (by rw [calls_set_self]; exact hanswer)
      change s.store = _ at hkept
      rw [hstore] at hkept
      cases hkept
      exact hfresh hmem
    · cases hstep
  | start i | read i now | resolveKey i outcome | lock i now | giveUp i | refreshed i expires
  | refreshFailed i | release i now | derived i ok | abort i | logout => exact absurd trivial hdirty

end Runs

/-- **A rotated token is not lost and not used again**, exactly along the runs in which no call is aborted
between the answer of its refresh and the write. -/
theorem rotation_sound_iff (provider : ProviderAuth) (overrides : Nat → AuthResolutionOverrides)
    (store : Option Credential) (events : List Event) {last : State}
    (hrun : Transition.run (step provider overrides) (.start store) events = some last) :
    Transition.Always (step provider overrides) Sound (.start store) events ↔
      Transition.Clean (step provider overrides) NotAborted (.start store) events :=
  Transition.always_iff_clean (fun _ h => Inv.sound h) (fun _ _ _ h hclean hstep => h.step hclean hstep)
    (fun _ _ _ h hdirty hstep => h.lost hdirty hstep) (inv_start store) hrun

/-- Two calls find the credential expired. The second one finds it refreshed under the lock. -/
def twoCalls : List Event :=
  [.start 0, .start 1, .read 0 50, .read 1 50, .lock 0 60, .refreshed 0 900000, .write 0, .abort 0,
    .release 0 70, .lock 1 80, .release 1 90, .derived 1 true, .logout]

def noOverrides : Nat → AuthResolutionOverrides := fun _ => ⟨none, none⟩

theorem rotation_sound_two_calls :
    Transition.Always (step ⟨true, true⟩ noOverrides) Sound (.start (some (.oauth ⟨0, 100⟩))) twoCalls := by
  have hsome : (Transition.run (step ⟨true, true⟩ noOverrides) (.start (some (.oauth ⟨0, 100⟩)))
      twoCalls).isSome = true := by
    decide +kernel
  obtain ⟨last, hrun⟩ := Option.isSome_iff_exists.mp hsome
  exact (rotation_sound_iff ⟨true, true⟩ noOverrides (some (.oauth ⟨0, 100⟩)) twoCalls hrun).mpr (by decide +kernel)

/-- A call is aborted while its refresh is being answered. The next one refreshes with the credential that
has been replaced. -/
theorem rotated_token_lost : ∃ events last,
    Transition.run (step ⟨true, true⟩ noOverrides) (.start (some (.oauth ⟨0, 100⟩))) events = some last ∧
      ¬ Transition.Always (step ⟨true, true⟩ noOverrides) Sound (.start (some (.oauth ⟨0, 100⟩))) events := by
  refine ⟨[.start 0, .start 1, .read 0 50, .read 1 50, .lock 0 60, .refreshed 0 900000, .abort 0,
    .write 0, .release 0 70, .lock 1 80], _, rfl, fun h => ?_⟩
  have hreused := (h _ (List.prefix_refl _) _ rfl).notReused 1 ⟨0, 100⟩
  revert hreused
  decide +kernel

end Mcpi.Ai.Auth
