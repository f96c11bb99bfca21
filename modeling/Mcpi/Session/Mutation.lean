import Mcpi.Session.State

/-!
# What one mutation does

`applyMutation` said once: which mutations a state accepts (`Accepts`), what an accepted
one writes (`applied`), and that a rejected one writes nothing. Everything later about
runs of mutations goes through `applyMutation_cases` and never unfolds the method again.
-/

namespace Mcpi.Session.SessionState

variable {ν : Type}

/-! ## Running an update -/

/-- The outcome of a method call and the state it leaves behind. -/
def Update.exec {α : Type} (u : Update ν α) (s : SessionState ν) :
    Except SessionError α × SessionState ν := (ExceptT.run u).run s

section Exec

variable {α β : Type} (s : SessionState ν)

@[simp] theorem exec_pure (a : α) : (pure a : Update ν α).exec s = (.ok a, s) := rfl

@[simp] theorem exec_get : (get : Update ν (SessionState ν)).exec s = (.ok s, s) := rfl

@[simp] theorem exec_modify (f : SessionState ν → SessionState ν) :
    (modify f : Update ν PUnit).exec s = (.ok (), f s) := rfl

@[simp] theorem exec_invalid (message : String) :
    (invalidMutation message : Update ν α).exec s =
      (.error ⟨.invalid_entry, "Invalid session mutation: " ++ message⟩, s) := rfl

@[simp] theorem exec_bind (u : Update ν α) (f : α → Update ν β) :
    (u >>= f).exec s =
      match u.exec s with
      | (.ok a, s') => (f a).exec s'
      | (.error e, s') => (.error e, s') := by
  show (ExceptT.run (u >>= f)).run s = _
  simp only [ExceptT.run_bind, StateT.run_bind]
  unfold Update.exec
  generalize (ExceptT.run u).run s = r
  obtain ⟨r, s'⟩ := r
  cases r <;> rfl

@[simp] theorem exec_require (ok : Bool) (message : String) :
    (require ok message : Update ν Unit).exec s =
      if ok then (.ok (), s)
      else (.error ⟨.invalid_entry, "Invalid session mutation: " ++ message⟩, s) := by
  unfold require
  split <;> rfl

/-- Either the check passes and does nothing, or it throws `invalid_entry` and does nothing. -/
theorem exec_requireChain (s' : SessionState ν) (lane : Option String) (entry : Entry ν) :
    ((∀ l ∈ lane, s'.lanes.get? l = some entry.parentId) ∧ (requireChain s' lane entry).exec s = (.ok (), s)) ∨
      (¬ (∀ l ∈ lane, s'.lanes.get? l = some entry.parentId) ∧
        ∃ message, (requireChain s' lane entry).exec s = (.error ⟨.invalid_entry, message⟩, s)) := by
  cases lane with
  | none => exact Or.inl ⟨by simp, rfl⟩
  | some lane =>
    cases hl : s'.lanes.get? lane with
    | none => exact Or.inr ⟨by simp [hl], by simp [requireChain, hl]⟩
    | some leafId =>
      by_cases hp : entry.parentId = leafId
      · exact Or.inl ⟨by simp [hl, hp], by simp [requireChain, hl, hp]⟩
      · exact Or.inr ⟨by simp [hl, Ne.symm hp], by simp [requireChain, hl, hp]⟩

theorem exec_requireEntry (s' : SessionState ν) (id : Option String) (message : String) :
    ((∀ i ∈ id, s'.entriesById.has i) ∧ (requireEntry (ν := ν) s' id message).exec s = (.ok (), s)) ∨
      (¬ (∀ i ∈ id, s'.entriesById.has i) ∧ ∃ message',
        (requireEntry (ν := ν) s' id message).exec s = (.error ⟨.invalid_entry, message'⟩, s)) := by
  cases id with
  | none => exact Or.inl ⟨by simp, rfl⟩
  | some id =>
    by_cases h : s'.entriesById.has id
    · exact Or.inl ⟨by simp [h], by simp [requireEntry, h]⟩
    · exact Or.inr ⟨by simp [h], by simp [requireEntry, h]⟩

end Exec

/-! ## Acceptance and effect -/

/-- The conditions under which `applyMutation` does not throw. -/
def Accepts (s : SessionState ν) (mutation : SessionMutation ν) : Prop :=
  mutation.seq = s.sequence + 1 ∧
  match mutation with
  | .entry lane entry =>
    entry.id ∉ s.usedIds ∧ (∀ l ∈ lane, s.lanes.get? l = some entry.parentId) ∧
      ∀ p ∈ entry.parentId, s.entriesById.has p
  | .record record => s.lanes.has record.lane ∧ record.id ∉ s.usedIds
  | .lane _ _ leafId => ∀ i ∈ leafId, s.entriesById.has i
  | .name _ _ => True
  | .label _ targetId _ => s.entriesById.has targetId

variable [Add ν]

/-- The state an accepted mutation leads to. -/
def applied (s : SessionState ν) : SessionMutation ν → SessionState ν
  | .entry lane entry =>
    { s with
      sequence := entry.seq
      usedIds := insert entry.id s.usedIds
      entries := s.entries ++ [entry]
      entriesById := s.entriesById.set entry.id entry
      lanes := match lane with
        | some lane => s.lanes.set lane (some entry.id)
        | none => s.lanes
      log := s.log ++ [.entry entry.seq entry]
      stats := if entry.type = .message then s.stats.addMessage else s.stats }
  | .record record =>
    { s with
      sequence := record.seq
      usedIds := insert record.id s.usedIds
      records := s.records ++ [record]
      openOperationsByLane :=
        if record.type = .operation_started then openOperation s.openOperationsByLane record
        else if record.type = .operation_finished then
          closeOperation s.openOperationsByLane record.lane record.runId
        else s.openOperationsByLane
      log := s.log ++ [.record record.seq record]
      stats := match record.usage? with
        | some usage => s.stats.addUsage usage
        | none => s.stats }
  | .lane seq lane leafId =>
    { s with
      sequence := seq
      lanes := s.lanes.set lane leafId
      log := s.log ++ [.lane seq lane leafId] }
  | .name seq name =>
    { s with sequence := seq, name := name, log := s.log ++ [.name seq name] }
  | .label seq targetId label =>
    { s with
      sequence := seq
      labels := match label with
        | none => s.labels.delete targetId
        | some label => s.labels.set targetId label
      log := s.log ++ [.label seq targetId label] }

/-- **`applyMutation`, said once.** An acceptable mutation succeeds and leaves `applied`; any
other throws `invalid_entry` and leaves the state as it was. -/
theorem applyMutation_cases (s : SessionState ν) (mutation : SessionMutation ν) :
    (s.Accepts mutation ∧ (applyMutation mutation).exec s = (.ok (), s.applied mutation)) ∨
      (¬ s.Accepts mutation ∧ ∃ message, (applyMutation mutation).exec s = (.error ⟨.invalid_entry, message⟩, s)) := by
  by_cases hseq : mutation.seq = s.sequence + 1
  case neg =>
    exact Or.inr ⟨fun h => hseq h.1, by simp [applyMutation, hseq]⟩
  cases mutation with
  | entry lane e =>
    simp only [applyMutation, exec_bind, exec_get, exec_require, hseq, Accepts]
    by_cases hid : e.id ∈ s.usedIds
    · exact Or.inr ⟨by simp [hid], by simp [hid]⟩
    rcases exec_requireChain s s lane e with ⟨hc, hx⟩ | ⟨hc, message, hx⟩
    · rcases exec_requireEntry s s e.parentId "references missing parent " with
        ⟨hp, hy⟩ | ⟨hp, message, hy⟩
      · refine Or.inl ⟨⟨trivial, hid, hc, hp⟩, ?_⟩
        cases lane <;> simp [hid, hx, hy, pushEntry, applied, ← hseq, SessionMutation.seq]
      · exact Or.inr ⟨fun h => hp h.2.2.2, message, by simp [hid, hx, hy]⟩
    · exact Or.inr ⟨fun h => hc h.2.2.1, message, by simp [hid, hx]⟩
  | record r =>
    simp only [applyMutation, exec_bind, exec_get, exec_require, hseq, Accepts]
    by_cases hl : s.lanes.has r.lane
    · by_cases hid : r.id ∈ s.usedIds
      · exact Or.inr ⟨by simp [hid], by simp [hl, hid]⟩
      · refine Or.inl ⟨⟨trivial, hl, hid⟩, ?_⟩
        cases husage : r.usage? <;> simp [hl, hid, husage, pushRecord, applied, ← hseq, SessionMutation.seq]
    · exact Or.inr ⟨by simp [hl], by simp [hl]⟩
  | lane seq lane leafId =>
    simp only [applyMutation, exec_bind, exec_get, exec_require, hseq, Accepts]
    rcases exec_requireEntry s s leafId "references missing lane target " with
      ⟨hp, hx⟩ | ⟨hp, message, hx⟩
    · exact Or.inl ⟨⟨trivial, hp⟩, by simp [hx, applied, ← hseq, SessionMutation.seq]⟩
    · exact Or.inr ⟨fun h => hp h.2, message, by simp [hx]⟩
  | name seq name =>
    exact Or.inl ⟨⟨hseq, trivial⟩, by simp [applyMutation, applied, ← hseq, SessionMutation.seq]⟩
  | label seq targetId label =>
    simp only [applyMutation, exec_bind, exec_get, exec_require, hseq, Accepts]
    rcases exec_requireEntry s s (some targetId) "references missing label target " with
      ⟨hp, hx⟩ | ⟨hp, message, hx⟩
    · refine Or.inl ⟨⟨trivial, hp targetId rfl⟩, ?_⟩
      cases label <;> simp [hx, applied, ← hseq, SessionMutation.seq]
    · exact Or.inr ⟨fun h => hp (by simpa using h.2), message, by simp [hx]⟩

end Mcpi.Session.SessionState
