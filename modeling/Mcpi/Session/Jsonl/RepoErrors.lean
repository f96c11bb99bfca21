import Mcpi.Session.Jsonl.Repo

/-!
# What forking can fail with

Neither loading a session nor writing a fork fails with `already_exists`: that is left to the
check of the destination.
-/

namespace Mcpi.Session

variable {ν : Type}

variable {s : SessionState ν}

namespace SessionState

theorem walkFrom_thrown (s : SessionState ν) (bounds : BranchBounds) (visited : List String) (current : Entry ν)
    (h : current ∈ s.entriesById.values) :
    ∀ error, (s.walkFrom bounds visited current h).thrown = some error → error.code ≠ .already_exists := by
  fun_induction walkFrom s bounds visited current h with
  | case1 => rintro error ⟨⟩; exact nofun
  | case2 => exact nofun
  | case3 => exact nofun
  | case4 => rintro error ⟨⟩; exact nofun
  | case5 _ _ _ _ _ _ _ _ _ _ ih => exact ih

theorem walkToRoot_thrown (s : SessionState ν) (start : Option String) (bounds : BranchBounds) :
    ∀ error, (s.walkToRoot start bounds).thrown = some error → error.code ≠ .already_exists := by
  intro error h
  unfold walkToRoot at h
  split at h
  · cases h
  · split at h
    · cases h
      rintro ⟨⟩
    · exact walkFrom_thrown s bounds [] _ _ error h

variable {error : SessionError}

/-- A branch is read, or something is wrong with it. -/
theorem findEntriesOnBranch_error {start : String}
    (h : s.findEntriesOnBranch { start, order := some .oldestFirst } = .error error) :
    error.code ≠ .already_exists := by
  simp only [findEntriesOnBranch, assertValidLimit, assertValidCursor, if_true] at h
  cases hwalk : (s.walkToRoot (some start) {}).thrown with
  | none =>
    simp only [hwalk] at h
    cases h
  | some thrown =>
    simp only [hwalk] at h
    cases h
    exact walkToRoot_thrown s (some start) {} _ hwalk

theorem requireLane_error {lane : String} (h : s.requireLane lane = .error error) : error.code ≠ .already_exists := by
  rw [requireLane] at h
  split at h
  · cases h
    exact nofun
  · cases h

theorem forkPoint_error {selectedEntryId : String} {position : ForkPosition}
    (h : s.forkPoint selectedEntryId position = .error error) :
    error.code ≠ .already_exists := by
  rw [forkPoint] at h
  split at h
  · cases h
    exact nofun
  · split at h
    · cases h
      exact nofun
    · cases h

theorem forkTarget_error {entryId : Option String} {position : Option ForkPosition}
    (h : s.forkTarget entryId position = .error error) : error.code ≠ .already_exists := by
  unfold forkTarget at h
  split at h
  · exact forkPoint_error h
  · split at h
    next hlane =>
      cases h
      exact requireLane_error hlane
    · cases h
    · exact forkPoint_error h

theorem createForkMutations_error {options : ForkOptions}
    (h : s.createForkMutations options = .error error) : error.code ≠ .already_exists := by
  rw [createForkMutations] at h
  cases hsource : s.forkSource options with
  | ok source =>
    rw [hsource] at h
    cases h
  | error sourceError =>
    rw [hsource] at h
    cases h
    cases options with
    | tree => cases hsource
    | branch entryId position =>
      rw [forkSource] at hsource
      cases htarget : s.forkTarget entryId position with
      | error targetError =>
        rw [htarget] at hsource
        cases hsource
        exact forkTarget_error htarget
      | ok targetId =>
        rw [htarget] at hsource
        cases targetId with
        | none => cases hsource
        | some start =>
          cases hbranch : s.findEntriesOnBranch { start, order := some .oldestFirst } with
          | ok entries =>
            simp only [bind, Except.bind, hbranch] at hsource
            cases hsource
          | error branchError =>
            simp only [bind, Except.bind, hbranch] at hsource
            cases hsource
            exact findEntriesOnBranch_error hbranch

theorem applyAll_error [Add ν] {mutations : List (SessionMutation ν)}
    (h : s.applyAll mutations = .error error) : error.code = .invalid_entry := by
  induction mutations generalizing s with
  | nil => cases h
  | cons mutation rest ih =>
    rw [applyAll] at h
    rcases applyMutation_cases s mutation with ⟨_, hexec⟩ | ⟨_, message, hexec⟩
    · rw [hexec] at h
      exact ih h
    · rw [hexec] at h
      cases h
      rfl

end SessionState

namespace Jsonl

variable [JsonNumber ν] [Add ν] [Zero ν]

/-! ## Errors of a load -/

/-- A failure that is not the check of the destination. -/
def LoadFailure.Other (failure : LoadFailure) : Prop :=
  ∀ error, failure = .session error → error.code ≠ .already_exists

theorem invalidFile_other (path : String) (line : Nat) (cause : String) : (invalidFile path line cause).Other := by
  rintro error ⟨⟩
  exact nofun

variable {failure : LoadFailure}

omit [JsonNumber ν] [Add ν] [Zero ν] in
theorem lineFailure_other (path : String) (line : Nat) (s : SessionState ν) (error : JsonlDecodeError) :
    (lineFailure path line s error).Other := by
  rcases lineFailure_cases path line s error with ⟨-, h⟩ | ⟨-, message, h⟩
  · rw [h]
    rintro error ⟨⟩
  · rw [h]
    exact invalidFile_other _ _ _

omit [Zero ν] in
theorem replay_other {path : String} {before lines : List (List Char)}
    (h : replay path before s lines = .failed failure) : failure.Other := by
  fun_induction replay path before s lines with
  | case1 => cases h
  | case2 => cases h
  | case3 =>
    cases h
    exact lineFailure_other _ _ _ _
  | case4 _ _ _ _ _ _ _ _ ih => exact ih h
  | case5 =>
    cases h
    exact invalidFile_other _ _ _
  | case6 before s line rest mutation _ error _ hexec hcode =>
    rcases SessionState.applyMutation_cases s mutation with ⟨_, happly⟩ | ⟨_, message, happly⟩
    · rw [happly] at hexec
      cases hexec
    · rw [happly] at hexec
      cases hexec
      exact absurd rfl hcode

theorem load_other {files : Files} {path : String}
    (h : (load files path : Except LoadFailure (JsonlSessionStorage ν) × Files).1 = .error failure) :
    failure.Other := by
  rw [load] at h
  split at h
  · cases h
    rintro error ⟨⟩
    exact nofun
  · rw [loadContent] at h
    split at h
    · cases h
      exact invalidFile_other _ _ _
    · cases h
      exact invalidFile_other _ _ _
    · split at h
      · cases h
        exact invalidFile_other _ _ _
      · split at h
        next hreplay =>
          cases h
          exact replay_other hreplay
        · cases h
        · split at h <;> cases h

/-- Writing a fork does not fail because something exists. -/
theorem fork_other {storage : JsonlSessionStorage ν} {files : Files} {path : String} {header : JsonlV4Header ν}
    {options : ForkOptions}
    (h : (fork storage files path header options).1 = .error failure) :
    failure.Other := by
  rw [fork] at h
  split at h
  next hmutations =>
    cases h
    rintro error ⟨⟩
    exact SessionState.createForkMutations_error hmutations
  · split at h
    next happly =>
      cases h
      rintro error ⟨⟩
      rw [SessionState.applyAll_error happly]
      exact nofun
    · exact load_other h

end Jsonl
end Mcpi.Session
