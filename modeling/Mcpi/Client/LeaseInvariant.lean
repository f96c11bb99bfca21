import Mcpi.Client.Leases

/-!
# What holds of session leases

An acquire, a create or a release that was under way when its era ended may still complete. The
counts of the new era are right as long as it changes nothing then.
-/

namespace Mcpi.Client

/-! ## Counting -/

section Counting

variable {α : Type} {p : α → Bool} {items : List α} {i j : Nat} {x y : α}

theorem countP_set_add (h : items[i]? = some x) (a : α) :
    (items.set i a).countP p + (if p x then 1 else 0) = items.countP p + (if p a then 1 else 0) := by
  obtain ⟨hi, rfl⟩ := List.getElem?_eq_some_iff.mp h
  have hle : (if p items[i] then 1 else 0) ≤ items.countP p := List.boole_getElem_le_countP hi
  rw [List.countP_set hi]
  omega

theorem index_unique (hcount : items.countP p ≤ 1) (hi : items[i]? = some x) (hx : p x = true)
    (hj : items[j]? = some y) (hy : p y = true) : i = j := by
  induction items generalizing i j with
  | nil => cases hi
  | cons a items ih =>
    have hnone : p a = true → ∀ (k : Nat) (z : α), items[k]? = some z → p z ≠ true := by
      intro ha k z hk hz
      have hpos : 0 < items.countP p := List.countP_pos_iff.mpr ⟨z, List.mem_of_getElem? hk, hz⟩
      rw [List.countP_cons_of_pos ha] at hcount
      omega
    have htail : items.countP p ≤ 1 := by
      rw [List.countP_cons] at hcount
      omega
    cases i with
    | zero =>
      cases hi
      cases j with
      | zero => rfl
      | succ j => exact absurd hy (hnone hx j y hj)
    | succ i =>
      cases j with
      | zero =>
        cases hj
        exact absurd hx (hnone hy i x hi)
      | succ j => rw [ih htail hi hj]

end Counting

/-! ## The properties -/

/-- The generation of the closures. -/
def LeasePhase.generation? : LeasePhase → Option Nat
  | .active generation | .detaching generation .. | .failing generation _ => some generation
  | _ => none

namespace PiClient

/-- `isActive` -/
def IsActive (client : PiClient) (lease : Lease) : Prop :=
  lease.phase = .active client.generation ∧ client.attached = true

/-- What holds of the leases of a session. A request to detach is sent when the last lease is
released, or makes up for an earlier one that failed. -/
structure Consistent (client : PiClient) : Prop where
  exclusive : ∀ (token token' : Nat) (lease lease' : Lease), client.leases[token]? = some lease →
    client.leases[token']? = some lease' → client.IsActive lease → lease.mode = .exclusive →
    client.IsActive lease' → token = token'
  count : client.count = client.leases.countP (Lease.live client.era)
  detaches : ∀ detach ∈ client.detaches, detach.remaining = 0 ∨ detach.cleanup = true
  current : ∀ lease ∈ client.leases, lease.phase = .active client.generation → lease.era = client.era

/-- What an acquire awaits lets it return a lease. -/
def completes (client : PiClient) (lease : Lease) : Bool :=
  match lease.phase with
  | .awaitingDetachment _ => !client.cleanupRequired && client.attached
  | .awaitingAttachment attachment => client.attachments[attachment]? = some (some true)
  | _ => false

/-- What an acquire awaits has failed, or the session is detached: the reservation is given back. -/
def givesBack (client : PiClient) (lease : Lease) : Bool :=
  match lease.phase with
  | .awaitingReconciliation reconciliation =>
    match client.reconciliations[reconciliation]? with
    | some { outcome := some false, finished := true, .. } => true
    | _ => false
  | .awaitingAttachment attachment => client.attachments[attachment]? = some (some false)
  | .detaching _ _ (some true) => true
  | _ => false

/-- Nothing that was under way when its era ended takes effect: an acquire returns no lease, a create
finds the session leased, and what is given back finds no lease counted. -/
def Timely (client : PiClient) (event : Event) : Prop :=
  match event with
  | .continueAcquire token => ∀ lease, client.leases[token]? = some lease →
      lease.era ≠ client.era →
      client.completes lease = false ∧ (client.givesBack lease = true → client.count = 0)
  | .continueCreate token => ∀ lease, client.leases[token]? = some lease →
      lease.era ≠ client.era → 0 < client.count
  | .continueRelease token => ∀ lease, client.leases[token]? = some lease →
      lease.era ≠ client.era → client.givesBack lease = true → client.count = 0
  | _ => True

instance (client : PiClient) (event : Event) : Decidable (client.Timely event) :=
  match event with
  | .continueAcquire token => inferInstanceAs (Decidable (∀ lease ∈ client.leases[token]?, _))
  | .continueCreate token => inferInstanceAs (Decidable (∀ lease ∈ client.leases[token]?, _))
  | .continueRelease token => inferInstanceAs (Decidable (∀ lease ∈ client.leases[token]?, _))
  | .acquire .. | .created .. | .release .. | .releaseFailed .. | .attachResponse .. => .isTrue trivial
  | .detachResponse .. | .reconcileResponse .. | .cleanedUp .. | .reconciled .. => .isTrue trivial
  | .snapshot .. | .removed | .connected | .disconnected | .dispose => .isTrue trivial

/-! ## The invariant -/

/-- What the steps keep. An exclusive lease is the only one. -/
structure Inv (client : PiClient) : Prop where
  eras : ∀ lease ∈ client.leases, lease.era ≤ client.era
  count : client.count = client.leases.countP (Lease.live client.era)
  generations : ∀ lease ∈ client.leases, ∀ generation ∈ lease.phase.generation?,
    generation ≤ client.generation ∧ (generation = client.generation ↔ lease.era = client.era)
  exclusive : ∀ token, client.exclusive = some token → ∃ lease, client.leases[token]? = some lease ∧
    lease.live client.era = true ∧ lease.mode = .exclusive
  alone : ∀ (token : Nat) (lease : Lease), client.leases[token]? = some lease →
    lease.live client.era = true → lease.mode = .exclusive →
    client.exclusive = some token ∧ client.count = 1
  detaches : ∀ detach ∈ client.detaches, detach.remaining = 0 ∨ detach.cleanup = true

theorem Inv.start : Inv {} :=
  ⟨by simp, rfl, by simp, nofun, by simp, by simp⟩

theorem live_of_active {client : PiClient} (h : client.Inv) {token : Nat} {lease : Lease}
    (hlease : client.leases[token]? = some lease) (hphase : lease.phase = .active client.generation) :
    lease.live client.era = true := by
  have hera := ((h.generations lease (List.mem_of_getElem? hlease)) client.generation (by rw [hphase]; rfl)).2.mp rfl
  simp [Lease.live, hera, hphase, LeasePhase.live]

theorem Inv.consistent {client : PiClient} (h : client.Inv) : client.Consistent where
  exclusive := by
    intro token token' lease lease' hlease hlease' hactive hmode hactive'
    have hlive := live_of_active h hlease hactive.1
    have hone := (h.alone token lease hlease hlive hmode).2
    rw [h.count] at hone
    exact index_unique (Nat.le_of_eq hone) hlease hlive hlease' (live_of_active h hlease' hactive'.1)
  count := h.count
  detaches := h.detaches
  current := fun lease hlease hphase =>
    ((h.generations lease hlease) client.generation (by rw [hphase]; rfl)).2.mp rfl

/-! ## Kinds of steps -/

theorem Inv.frame {client client' : PiClient} (h : client.Inv) (hcount : client'.count = client.count)
    (hexclusive : client'.exclusive = client.exclusive)
    (hgeneration : client'.generation = client.generation) (hera : client'.era = client.era)
    (hleases : client'.leases = client.leases)
    (hdetaches : ∀ detach ∈ client'.detaches, detach.remaining = 0 ∨ detach.cleanup = true) :
    client'.Inv := by
  refine ⟨?_, ?_, ?_, ?_, ?_, hdetaches⟩
  · rw [hleases, hera]
    exact h.eras
  · rw [hcount, hleases, hera]
    exact h.count
  · rw [hleases, hgeneration, hera]
    exact h.generations
  · rw [hexclusive, hleases, hera]
    exact h.exclusive
  · rw [hleases, hexclusive, hera, hcount]
    exact h.alone

/-- The phase of a lease changes, and it counts as before. -/
theorem Inv.setPhase {client : PiClient} (h : client.Inv) {token : Nat} {lease : Lease}
    (hlease : client.leases[token]? = some lease) {phase : LeasePhase}
    (hlive : Lease.live client.era { lease with phase } = lease.live client.era)
    (hgeneration : ∀ generation ∈ phase.generation?,
      generation ≤ client.generation ∧ (generation = client.generation ↔ lease.era = client.era)) :
    (client.setLease token { lease with phase }).Inv := by
  have hmem := List.mem_of_getElem? hlease
  have hlt := (List.getElem?_eq_some_iff.mp hlease).1
  refine ⟨?_, ?_, ?_, ?_, ?_, h.detaches⟩
  · intro other hother
    rcases List.mem_or_eq_of_mem_set hother with hother | rfl
    · exact h.eras other hother
    · exact h.eras lease hmem
  · have hset := countP_set_add (p := Lease.live client.era) hlease { lease with phase }
    rw [hlive] at hset
    show client.count = (client.leases.set token { lease with phase }).countP (Lease.live client.era)
    rw [h.count]
    omega
  · intro other hother
    rcases List.mem_or_eq_of_mem_set hother with hother | rfl
    · exact h.generations other hother
    · exact hgeneration
  · intro token' hexclusive
    obtain ⟨other, hother, hotherLive, hmode⟩ := h.exclusive token' hexclusive
    by_cases htoken : token = token'
    · subst htoken
      obtain rfl := Option.some.inj (hlease.symm.trans hother)
      exact ⟨_, List.getElem?_set_self hlt, hlive.trans hotherLive, hmode⟩
    · exact ⟨other, (List.getElem?_set_ne htoken).trans hother, hotherLive, hmode⟩
  · intro token' other hother hotherLive hmode
    by_cases htoken : token = token'
    · subst htoken
      obtain rfl := Option.some.inj ((List.getElem?_set_self hlt).symm.trans hother)
      exact h.alone token lease hlease (hlive.symm.trans hotherLive) hmode
    · exact h.alone token' other ((List.getElem?_set_ne htoken).symm.trans hother) hotherLive hmode

/-- A lease is given back. If it does not count, nothing does. -/
theorem Inv.giveBack {client : PiClient} (h : client.Inv) {token : Nat} {lease : Lease}
    (hlease : client.leases[token]? = some lease)
    (hcounts : lease.live client.era = true ∨ lease.live client.era = false ∧ client.count = 0) :
    ((client.releaseSessionLease token).setLease token { lease with phase := .over }).Inv := by
  have hmem := List.mem_of_getElem? hlease
  have hlt := (List.getElem?_eq_some_iff.mp hlease).1
  have hover : Lease.live client.era { lease with phase := .over } = false := by
    simp [Lease.live, LeasePhase.live]
  have hset := countP_set_add (p := Lease.live client.era) hlease { lease with phase := .over }
  rw [hover, ← h.count] at hset
  have hcount : client.count - 1 = (client.leases.set token { lease with phase := .over }).countP
      (Lease.live client.era) := by
    rcases hcounts with hlive | ⟨hlive, hzero⟩
    · rw [hlive] at hset
      simp at hset
      omega
    · rw [hlive] at hset
      simp at hset
      omega
  refine ⟨?_, hcount, ?_, ?_, ?_, h.detaches⟩
  · intro other hother
    rcases List.mem_or_eq_of_mem_set hother with hother | rfl
    · exact h.eras other hother
    · exact h.eras lease hmem
  · intro other hother
    rcases List.mem_or_eq_of_mem_set hother with hother | rfl
    · exact h.generations other hother
    · intro generation hgeneration
      cases hgeneration
  · intro token' hexclusive
    by_cases htoken : token = token'
    · subst htoken
      simp [setLease, releaseSessionLease] at hexclusive
    · have hexclusive' : client.exclusive = some token' := by
        obtain ⟨-, hexclusive⟩ := Option.ite_none_left_eq_some.mp hexclusive
        exact hexclusive
      obtain ⟨other, hother, hotherLive, hmode⟩ := h.exclusive token' hexclusive'
      exact ⟨other, (List.getElem?_set_ne htoken).trans hother, hotherLive, hmode⟩
  · intro token' other hother hotherLive hmode
    by_cases htoken : token = token'
    · subst htoken
      obtain rfl := Option.some.inj ((List.getElem?_set_self hlt).symm.trans hother)
      have hotherLive : Lease.live client.era { lease with phase := .over } = true := hotherLive
      rw [hover] at hotherLive
      cases hotherLive
    · have hother' := (List.getElem?_set_ne htoken).symm.trans hother
      obtain ⟨hexclusive, hone⟩ := h.alone token' other hother' hotherLive hmode
      exfalso
      rcases hcounts with hlive | ⟨-, hzero⟩
      · rw [h.count] at hone
        exact htoken (index_unique (Nat.le_of_eq hone) hlease hlive hother' hotherLive)
      · omega

theorem Inv.reserve {client : PiClient} (h : client.Inv) {mode : SessionLeaseMode}
    (hfree : client.reservationFails mode = false) (phase : LeasePhase) (hphase : phase.live = true)
    (hgeneration : ∀ generation ∈ phase.generation?, generation = client.generation) :
    ({ client.reserveSessionLease mode client.leases.length with
      leases := client.leases ++ [{ mode, era := client.era, phase }] } : PiClient).Inv := by
  have hlive : Lease.live client.era { mode, era := client.era, phase } = true := by
    simp [Lease.live, hphase]
  have hnone : client.exclusive = none := by
    cases mode with
    | shared => simpa [reservationFails] using hfree
    | exclusive =>
      have hzero : client.count = 0 := by simpa [reservationFails] using hfree
      cases hexclusive : client.exclusive with
      | none => rfl
      | some token =>
        obtain ⟨lease, hlease, hleaseLive, hmode⟩ := h.exclusive token hexclusive
        have := (h.alone token lease hlease hleaseLive hmode).2
        omega
  refine ⟨?_, ?_, ?_, ?_, ?_, h.detaches⟩
  · intro lease hlease
    rcases List.mem_append.mp hlease with hlease | hlease
    · exact h.eras lease hlease
    · rw [List.mem_singleton.mp hlease]
      exact Nat.le_refl _
  · show client.count + 1 = (client.leases ++ [({ mode, era := client.era, phase } : Lease)]).countP
      (Lease.live client.era)
    rw [List.countP_append, List.countP_singleton, hlive, h.count]
    rfl
  · intro lease hlease
    rcases List.mem_append.mp hlease with hlease | hlease
    · exact h.generations lease hlease
    · rw [List.mem_singleton.mp hlease]
      intro generation hg
      have heq := hgeneration generation hg
      exact ⟨Nat.le_of_eq heq, fun _ => rfl, fun _ => heq⟩
  · intro token hexclusive
    cases mode with
    | shared => simp [reserveSessionLease, hnone] at hexclusive
    | exclusive =>
      obtain rfl : client.leases.length = token := by
        simpa [reserveSessionLease] using hexclusive
      exact ⟨_, List.getElem?_concat_length, hlive, rfl⟩
  · intro token lease hlease hleaseLive hmode
    have hlt := (List.getElem?_eq_some_iff.mp hlease).1
    by_cases hold : token < client.leases.length
    · have hlease' := (List.getElem?_append_left hold).symm.trans hlease
      obtain ⟨hexclusive, -⟩ := h.alone token lease hlease' hleaseLive hmode
      rw [hnone] at hexclusive
      cases hexclusive
    · rw [List.length_append, List.length_singleton] at hlt
      obtain rfl : token = client.leases.length := by omega
      obtain rfl := Option.some.inj (List.getElem?_concat_length.symm.trans hlease)
      obtain rfl : mode = .exclusive := hmode
      have hzero : client.count = 0 := by simpa [reservationFails] using hfree
      exact ⟨by simp [reserveSessionLease], by simp [reserveSessionLease, hzero]⟩

theorem Inv.invalidate {client client' : PiClient} (h : client.Inv) (hcount : client'.count = 0)
    (hexclusive : client'.exclusive = none) (hera : client'.era = client.era + 1)
    (hgeneration : client'.generation = client.generation + 1 ∨
      client'.generation = client.generation ∧ client.count = 0)
    (hleases : client'.leases = client.leases) (hdetaches : client'.detaches = client.detaches) :
    client'.Inv := by
  have hdead : ∀ lease ∈ client'.leases, lease.live client'.era = false := by
    intro lease hlease
    rw [hleases] at hlease
    have hle := h.eras lease hlease
    have hne : lease.era ≠ client'.era := by omega
    simp [Lease.live, hne]
  refine ⟨?_, ?_, ?_, by simp [hexclusive], ?_, hdetaches ▸ h.detaches⟩
  · intro lease hlease
    have hle := h.eras lease (hleases ▸ hlease)
    omega
  · rw [hcount]
    exact (List.countP_eq_zero.mpr fun lease hlease => by simp [hdead lease hlease]).symm
  · intro lease hlease generation hg
    rw [hleases] at hlease
    obtain ⟨hle, hcurrent⟩ := h.generations lease hlease generation hg
    have heraLe := h.eras lease hlease
    rcases hgeneration with hnext | ⟨hsame, hzero⟩
    · exact ⟨by omega, fun heq => by omega, fun heq => by omega⟩
    · refine ⟨by omega, fun heq => ?_, fun heq => by omega⟩
      -- such a lease would have been counted
      exfalso
      have hlive : lease.live client.era = true := by
        have hera' := hcurrent.mp (by omega)
        cases hphase : lease.phase <;> simp_all [Lease.live, LeasePhase.live, LeasePhase.generation?]
      have hpos : 0 < client.leases.countP (Lease.live client.era) :=
        List.countP_pos_iff.mpr ⟨lease, hlease, hlive⟩
      rw [← h.count] at hpos
      omega
  · intro token lease hlease hlive
    rw [hdead lease (List.mem_of_getElem? hlease)] at hlive
    cases hlive

theorem Inv.mapLeases {client : PiClient} (h : client.Inv) {f : Lease → Lease}
    (hmode : ∀ lease, (f lease).mode = lease.mode) (hera : ∀ lease, (f lease).era = lease.era)
    (hlive : ∀ lease, (f lease).phase.live = lease.phase.live)
    (hgeneration : ∀ lease, (f lease).phase.generation? = lease.phase.generation?) :
    ({ client with leases := client.leases.map f } : PiClient).Inv := by
  have hall : ∀ era lease, Lease.live era (f lease) = Lease.live era lease := fun era lease => by
    rw [Lease.live, Lease.live, hera, hlive]
  refine ⟨?_, ?_, ?_, ?_, ?_, h.detaches⟩
  · intro lease hlease
    obtain ⟨other, hother, rfl⟩ := List.mem_map.mp hlease
    rw [hera]
    exact h.eras other hother
  · show client.count = (client.leases.map f).countP (Lease.live client.era)
    rw [List.countP_map, h.count]
    exact List.countP_congr fun lease _ => by simp [hall]
  · intro lease hlease generation hg
    obtain ⟨other, hother, rfl⟩ := List.mem_map.mp hlease
    rw [hgeneration] at hg
    rw [hera]
    exact h.generations other hother generation hg
  · intro token hexclusive
    obtain ⟨lease, hlease, hleaseLive, hleaseMode⟩ := h.exclusive token hexclusive
    refine ⟨f lease, ?_, (hall _ _).trans hleaseLive, (hmode lease).trans hleaseMode⟩
    rw [List.getElem?_map, hlease]
    rfl
  · intro token lease hlease hleaseLive hleaseMode
    rw [List.getElem?_map, Option.map_eq_some_iff] at hlease
    obtain ⟨other, hother, rfl⟩ := hlease
    exact h.alone token other hother ((hall _ _).symm.trans hleaseLive) ((hmode other).symm.trans hleaseMode)

/-! ## `acquireSession` and `createSession` -/

section Acquire

variable {client : PiClient} {token : Nat} {lease : Lease}

section

variable (h : client.Inv) (hlease : client.leases[token]? = some lease) (hlive : lease.phase.live = true)
include h hlease hlive

theorem Inv.setWaiting {phase : LeasePhase} (hphase : phase.live = true)
    (hgeneration : phase.generation? = none ∨ phase.generation? = lease.phase.generation?) :
    (client.setLease token { lease with phase }).Inv := by
  refine h.setPhase hlease (by simp [Lease.live, hlive, hphase]) fun generation hg => ?_
  rcases hgeneration with hnone | hsame
  · rw [hnone] at hg
    cases hg
  · rw [hsame] at hg
    exact h.generations lease (List.mem_of_getElem? hlease) generation hg

theorem Inv.createSessionLease (hera : lease.era = client.era) :
    (client.createSessionLease token lease).Inv := by
  refine h.setPhase hlease (by rw [Lease.live, Lease.live, hlive]; rfl) fun generation hg => ?_
  cases hg
  exact ⟨Nat.le_refl _, fun _ => hera, fun _ => rfl⟩

/-- An acquire fails, and its lease counts or nothing does. -/
theorem Inv.failAcquire (hcounts : lease.era ≠ client.era → client.count = 0) :
    (client.failAcquire token lease).Inv := by
  refine h.giveBack hlease ?_
  by_cases hera : lease.era = client.era
  · exact .inl (by simp [Lease.live, hera, hlive])
  · exact .inr ⟨by simp [Lease.live, hera], hcounts hera⟩

theorem Inv.acquireAttachment {reconciled : Bool}
    (htimely : lease.era = client.era ∨ reconciled = true ∨ client.attached = false) :
    (client.acquireAttachment token lease reconciled).Inv := by
  unfold PiClient.acquireAttachment
  split
  · split
    · exact h.setWaiting hlease hlive rfl (.inl rfl)
    · have hsent : ({ client with
          attachment := some client.attachments.length
          attachments := client.attachments ++ [client.request] } : PiClient).Inv :=
        h.frame rfl rfl rfl rfl rfl h.detaches
      exact hsent.setWaiting hlease hlive rfl (.inl rfl)
  · refine h.createSessionLease hlease hlive ?_
    rcases htimely with hera | hreconciled | hattached
    · exact hera
    · simp_all
    · simp_all

theorem Inv.acquireReconciliation
    (htimely : lease.era = client.era ∨ client.cleanupRequired = true ∨ client.attached = false) :
    (client.acquireReconciliation token lease).Inv := by
  unfold PiClient.acquireReconciliation
  split
  · split
    · exact h.setWaiting hlease hlive rfl (.inl rfl)
    · have hdetaches : ∀ detach ∈ (if client.request = none then client.detaches ++
          [{ remaining := client.leases.countP (Lease.live client.era), cleanup := true }]
          else client.detaches), detach.remaining = 0 ∨ detach.cleanup = true := by
        intro detach hdetach
        split at hdetach
        · rcases List.mem_append.mp hdetach with hold | hnew
          · exact h.detaches detach hold
          · exact .inr (by rw [List.mem_singleton.mp hnew])
        · exact h.detaches detach hdetach
      have hsent : ({ client with
          reconciliation := some client.reconciliations.length
          reconciliations := client.reconciliations ++ [{ outcome := client.request }]
          detaches := _ } : PiClient).Inv := h.frame rfl rfl rfl rfl rfl hdetaches
      exact hsent.setWaiting hlease hlive rfl (.inl rfl)
  · refine h.acquireAttachment hlease hlive ?_
    rcases htimely with hera | hcleanup | hattached
    · exact .inl hera
    · contradiction
    · exact .inr (.inr hattached)

end

theorem Inv.acquireSession (h : client.Inv) (mode : SessionLeaseMode) : (client.acquireSession mode).Inv := by
  unfold PiClient.acquireSession
  split
  · exact h
  · rename_i hfree
    have hfree : client.reservationFails mode = false := by
      simp only [Bool.or_eq_true, not_or, Bool.not_eq_true] at hfree
      exact hfree.2
    have hreserved := h.reserve hfree (.active client.generation) rfl (fun generation hg => (Option.some.inj hg).symm)
    dsimp only
    unfold PiClient.acquireReserved
    split
    · exact hreserved.setWaiting List.getElem?_concat_length rfl rfl (.inl rfl)
    · exact hreserved.acquireReconciliation List.getElem?_concat_length rfl (.inl rfl)

theorem Inv.continueAcquire (h : client.Inv) (hlease : client.leases[token]? = some lease)
    (htimely : lease.era ≠ client.era →
      client.completes lease = false ∧ (client.givesBack lease = true → client.count = 0))
    {client' : PiClient} (hstep : client.continueAcquire token lease = some client') :
    client'.Inv := by
  unfold PiClient.continueAcquire at hstep
  split at hstep
  · rename_i detaching hphase
    obtain ⟨-, ⟨⟩⟩ := Option.ite_none_right_eq_some.mp hstep
    refine h.acquireReconciliation hlease (by rw [hphase]; rfl) ?_
    by_cases hera : lease.era = client.era
    · exact .inl hera
    · have hcompletes := (htimely hera).1
      rw [completes, hphase] at hcompletes
      simp only [Bool.and_eq_false_iff, Bool.not_eq_false'] at hcompletes
      exact .inr hcompletes
  · rename_i reconciliation hphase
    have hlive : lease.phase.live = true := by rw [hphase]; rfl
    split at hstep
    · cases hstep
      exact h.acquireAttachment hlease hlive (.inr (.inl rfl))
    · rename_i hfinished
      cases hstep
      refine h.failAcquire hlease hlive fun hera => (htimely hera).2 ?_
      simp [givesBack, hphase, hfinished]
    · cases hstep
  · rename_i attachment hphase
    have hlive : lease.phase.live = true := by rw [hphase]; rfl
    have hcleared : ({ client with
        attachment := if client.attachment = some attachment then none else client.attachment } :
          PiClient).Inv := h.frame rfl rfl rfl rfl rfl h.detaches
    dsimp only at hstep
    split at hstep
    · rename_i hattached
      cases hstep
      refine hcleared.createSessionLease hlease hlive ?_
      by_contra hera
      have hcompletes := (htimely hera).1
      simp [completes, hphase, hattached] at hcompletes
    · rename_i hfailed
      cases hstep
      refine hcleared.failAcquire hlease hlive fun hera => (htimely hera).2 ?_
      simp [givesBack, hphase, hfailed]
    · cases hstep
  · cases hstep

end Acquire

/-! ## Created and released leases -/

section Release

variable {client client' : PiClient} {token : Nat} {lease : Lease}

variable (h : client.Inv)
include h

theorem Inv.setOver (hlease : client.leases[token]? = some lease)
    (hlive : lease.live client.era = false) :
    (client.setLease token { lease with phase := .over }).Inv := by
  refine h.setPhase hlease ?_ nofun
  rw [hlive]
  simp [Lease.live, LeasePhase.live]

theorem Inv.created (attached : Bool) :
    ({ client with
      attached
      leases := client.leases ++ [{ mode := .exclusive, era := client.era, phase := .created }] } : PiClient).Inv := by
  have hdead : Lease.live client.era { mode := .exclusive, era := client.era, phase := .created } =
      false := by simp [Lease.live, LeasePhase.live]
  refine ⟨?_, ?_, ?_, ?_, ?_, h.detaches⟩
  · intro other hother
    rcases List.mem_append.mp hother with hother | hother
    · exact h.eras other hother
    · rw [List.mem_singleton.mp hother]
  · rw [List.countP_append, List.countP_singleton, hdead]
    exact h.count
  · intro other hother
    rcases List.mem_append.mp hother with hother | hother
    · exact h.generations other hother
    · rw [List.mem_singleton.mp hother]
      exact nofun
  · intro token hexclusive
    obtain ⟨other, hother, hlive, hmode⟩ := h.exclusive token hexclusive
    have hlt := (List.getElem?_eq_some_iff.mp hother).1
    exact ⟨other, (List.getElem?_append_left hlt).trans hother, hlive, hmode⟩
  · intro token other hother hlive hmode
    by_cases hold : token < client.leases.length
    · exact h.alone token other ((List.getElem?_append_left hold).symm.trans hother) hlive hmode
    · have hlt := (List.getElem?_eq_some_iff.mp hother).1
      rw [List.length_append, List.length_singleton] at hlt
      obtain rfl : token = client.leases.length := by omega
      obtain rfl := Option.some.inj (List.getElem?_concat_length.symm.trans hother)
      rw [hdead] at hlive
      cases hlive

theorem Inv.leaseCreated (hlease : client.leases[token]? = some lease)
    (hera : lease.era = client.era) (hzero : client.count = 0) :
    ((client.reserveSessionLease .exclusive token).createSessionLease token
      { lease with mode := .exclusive }).Inv := by
  have hmem := List.mem_of_getElem? hlease
  have hlt := (List.getElem?_eq_some_iff.mp hlease).1
  have hnone : ∀ other ∈ client.leases, other.live client.era = false := by
    intro other hother
    rw [h.count] at hzero
    simpa using List.countP_eq_zero.mp hzero other hother
  have hlive :
      Lease.live client.era { mode := .exclusive, era := lease.era, phase := .active client.generation } = true := by
    simp [Lease.live, hera, LeasePhase.live]
  have hset := countP_set_add (p := Lease.live client.era) hlease
    { mode := .exclusive, era := lease.era, phase := .active client.generation }
  rw [hnone lease hmem, hlive, ← h.count] at hset
  refine ⟨?_, ?_, ?_, ?_, ?_, h.detaches⟩
  · intro other hother
    rcases List.mem_or_eq_of_mem_set hother with hother | rfl
    · exact h.eras other hother
    · exact h.eras lease hmem
  · exact hset.symm
  · intro other hother
    rcases List.mem_or_eq_of_mem_set hother with hother | rfl
    · exact h.generations other hother
    · intro generation hg
      cases hg
      exact ⟨Nat.le_refl _, fun _ => hera, fun _ => rfl⟩
  · intro token' hexclusive
    obtain rfl : token = token' := by
      simpa [PiClient.createSessionLease, setLease, reserveSessionLease] using hexclusive
    exact ⟨_, List.getElem?_set_self hlt, hlive, rfl⟩
  · intro token' other hother hotherLive _
    by_cases htoken : token = token'
    · subst htoken
      refine ⟨by simp [PiClient.createSessionLease, setLease, reserveSessionLease], ?_⟩
      show client.count + 1 = 1
      omega
    · have hother' := (List.getElem?_set_ne htoken).symm.trans hother
      have hotherLive : Lease.live client.era other = true := hotherLive
      rw [hnone other (List.mem_of_getElem? hother')] at hotherLive
      cases hotherLive

theorem Inv.continueCreate (hlease : client.leases[token]? = some lease)
    (htimely : lease.era ≠ client.era → 0 < client.count)
    (hstep : client.continueCreate token lease = some client') : client'.Inv := by
  unfold PiClient.continueCreate at hstep
  split at hstep
  · rename_i hphase
    split at hstep
    · cases hstep
      exact h.setOver hlease (by simp [Lease.live, hphase, LeasePhase.live])
    · rename_i hfree
      cases hstep
      have hzero : client.count = 0 := by simpa [reservationFails] using hfree
      refine h.leaseCreated hlease ?_ hzero
      by_contra hera
      have := htimely hera
      omega
  · cases hstep

/-- The generation of a lease tells whether it counts. -/
theorem Inv.live_iff (hlease : client.leases[token]? = some lease)
    (hlive : lease.phase.live = true) {generation : Nat}
    (hgeneration : lease.phase.generation? = some generation) :
    lease.live client.era = true ↔ generation = client.generation := by
  rw [(h.generations lease (List.mem_of_getElem? hlease) generation hgeneration).2]
  simp [Lease.live, hlive]

theorem Inv.release (hlease : client.leases[token]? = some lease) {relinquishOnFailure : Bool}
    (hstep : client.release token lease relinquishOnFailure = some client') : client'.Inv := by
  unfold PiClient.release at hstep
  split at hstep
  · rename_i generation hphase
    have hlive : lease.phase.live = true := by rw [hphase]; rfl
    have hcurrent := h.live_iff hlease hlive (by rw [hphase]; rfl : _ = some generation)
    split at hstep
    · rename_i hstale
      cases hstep
      exact h.setOver hlease (Bool.eq_false_iff.mpr fun hcounts => hstale (hcurrent.mp hcounts))
    · rename_i hsame
      have hcounts := hcurrent.mpr (Decidable.not_not.mp hsame)
      split at hstep
      · cases hstep
        exact h
      · split at hstep
        · rename_i hlast
          cases hstep
          have hremaining : client.leases.countP (Lease.live client.era) - 1 = 0 := by
            rw [← h.count]
            omega
          have hdetaches : ∀ detach ∈ client.detaches ++
              [{ remaining := client.leases.countP (Lease.live client.era) - 1, cleanup := false }],
              detach.remaining = 0 ∨ detach.cleanup = true := by
            intro detach hdetach
            rcases List.mem_append.mp hdetach with hold | hnew
            · exact h.detaches detach hold
            · rw [List.mem_singleton.mp hnew]
              exact .inl hremaining
          have hsent : ({ client with detachment := some token, detaches := _ } : PiClient).Inv :=
            h.frame rfl rfl rfl rfl rfl hdetaches
          exact hsent.setWaiting hlease hlive rfl (.inr (by rw [hphase]; rfl))
        · cases hstep
          exact h.giveBack hlease (.inl hcounts)
  · cases hstep
    exact h
  · cases hstep
    exact h
  · cases hstep
    exact h
  · cases hstep

theorem Inv.continueRelease (hlease : client.leases[token]? = some lease)
    (htimely : lease.era ≠ client.era → client.givesBack lease = true → client.count = 0)
    (hstep : client.continueRelease token lease = some client') : client'.Inv := by
  have hsettled : ({ client with
      detachment := if client.detachment = some token then none else client.detachment } :
        PiClient).Inv := h.frame rfl rfl rfl rfl rfl h.detaches
  unfold PiClient.continueRelease at hstep
  dsimp only at hstep
  split at hstep
  · rename_i hphase
    cases hstep
    refine hsettled.giveBack hlease ?_
    by_cases hera : lease.era = client.era
    · exact .inl (by simp [Lease.live, hera, hphase, LeasePhase.live])
    · exact .inr ⟨by simp [Lease.live, hera], htimely hera (by rw [givesBack, hphase])⟩
  · rename_i hphase
    cases hstep
    exact hsettled.setWaiting hlease (by rw [hphase]; rfl) rfl (.inr (by rw [hphase]; rfl))
  · cases hstep

theorem Inv.releaseFailed (hlease : client.leases[token]? = some lease)
    (hstep : client.releaseFailed token lease = some client') : client'.Inv := by
  unfold PiClient.releaseFailed at hstep
  split at hstep
  · rename_i generation relinquishOnFailure hphase
    have hlive : lease.phase.live = true := by rw [hphase]; rfl
    have hcurrent := h.live_iff hlease hlive (by rw [hphase]; rfl : _ = some generation)
    split at hstep
    · rename_i hstale
      cases hstep
      exact h.setOver hlease (Bool.eq_false_iff.mpr fun hcounts => hstale (hcurrent.mp hcounts))
    · rename_i hsame
      obtain rfl := Decidable.not_not.mp hsame
      split at hstep
      · cases hstep
        have hcleanup : ({ client with cleanupRequired := true } : PiClient).Inv :=
          h.frame rfl rfl rfl rfl rfl h.detaches
        exact hcleanup.giveBack hlease (.inl (hcurrent.mpr rfl))
      · cases hstep
        exact h.setWaiting hlease hlive rfl (.inr (by rw [hphase]; rfl))
  · cases hstep

end Release

/-! ## The connection -/

section Connection

variable {client : PiClient}

theorem rejectLease_generation (lease : Lease) :
    (rejectLease lease).phase.generation? = lease.phase.generation? ∧
      (rejectLease lease).phase.live = lease.phase.live ∧
      (rejectLease lease).mode = lease.mode ∧ (rejectLease lease).era = lease.era := by
  obtain ⟨mode, era, phase⟩ := lease
  cases phase <;> exact ⟨rfl, rfl, rfl, rfl⟩

theorem Inv.rejectPendingRequests (h : client.Inv) : client.rejectPendingRequests.Inv := by
  have hmapped := h.mapLeases (fun lease => (rejectLease_generation lease).2.2.1)
    (fun lease => (rejectLease_generation lease).2.2.2)
    (fun lease => (rejectLease_generation lease).2.1) (fun lease => (rejectLease_generation lease).1)
  exact hmapped.frame rfl rfl rfl rfl rfl h.detaches

theorem Inv.handleDisconnected (h : client.Inv) : client.handleDisconnected.Inv := by
  refine Inv.rejectPendingRequests ?_
  unfold invalidateAllSessionLeases
  split
  · exact h.invalidate rfl rfl rfl (.inl rfl) rfl rfl
  · rename_i hcount
    have hzero : client.count = 0 := Nat.eq_zero_of_not_pos hcount
    refine h.invalidate hzero ?_ rfl (.inr ⟨rfl, hzero⟩) rfl rfl
    cases hexclusive : client.exclusive with
    | none => rfl
    | some token =>
      obtain ⟨lease, hlease, hlive, hmode⟩ := h.exclusive token hexclusive
      have hone := (h.alone token lease hlease hlive hmode).2
      omega

theorem Inv.handleRemoved (h : client.Inv) : client.handleRemoved.Inv :=
  h.invalidate rfl rfl rfl (.inl rfl) rfl rfl

end Connection

end PiClient

end Mcpi.Client
