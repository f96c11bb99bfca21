import Mathlib.Data.List.Nodup

/-!
# Calls and answers

A sequence of messages some of which make calls and some of which answer one. In a paired sequence
every call is answered once before the next message that makes calls or interrupts, and every
answer is to a call of the closest message before it. `replay` drops the messages that failed and
answers the calls that are left unanswered; `Answerable` says which sequences it makes paired.
-/

namespace Pairing

variable {ι : Type}

/-- A message: it interrupts, makes some calls, made calls but failed, or answers one. -/
inductive Item (ι : Type) where
  | interrupt
  | calls (ids : List ι)
  | failed
  | answer (id : ι)
  deriving DecidableEq

/-- The answers before the next message of another kind. -/
def answers : List (Item ι) → List ι
  | .answer id :: rest => id :: answers rest
  | _ => []

/-- The calls of every message are distinct. -/
def DistinctCalls (items : List (Item ι)) : Prop := ∀ ids, .calls ids ∈ items → ids.Nodup

theorem DistinctCalls.tail {item : Item ι} {items : List (Item ι)} (h : DistinctCalls (item :: items)) :
    DistinctCalls items :=
  fun ids hids => h ids (List.mem_cons_of_mem _ hids)

theorem answers_append (l : List ι) (items : List (Item ι)) :
    answers (l.map .answer ++ items) = l ++ answers items := by
  induction l with
  | nil => rfl
  | cons id l ih => rw [List.map_cons, List.cons_append, answers, ih, List.cons_append]

variable [DecidableEq ι]

/-! ## Pairing -/

/-- **A paired sequence** after a message with the calls `current`. -/
def Paired (current : List ι) : List (Item ι) → Prop
  | [] => True
  | .interrupt :: rest | .failed :: rest => Paired current rest
  | .calls ids :: rest => (∀ id ∈ ids, (answers rest).count id = 1) ∧ Paired ids rest
  | .answer id :: rest => id ∈ current ∧ Paired current rest

instance Paired.decide : ∀ (current : List ι) (items : List (Item ι)), Decidable (Paired current items)
  | _, [] => .isTrue trivial
  | current, .interrupt :: rest | current, .failed :: rest => Paired.decide current rest
  | _, .calls ids :: rest =>
    have := Paired.decide ids rest
    inferInstanceAs (Decidable (_ ∧ _))
  | current, .answer _ :: rest =>
    have := Paired.decide current rest
    inferInstanceAs (Decidable (_ ∧ _))

/-! ## Replay -/

/-- The answers that are made up for calls without one. -/
def synthetic (pending existing : List ι) : List (Item ι) :=
  (pending.filter fun id => id ∉ existing).map .answer

/-- What comes of a sequence, where the calls `pending` wait for answers of which `existing` have
come. -/
def replay (pending existing : List ι) : List (Item ι) → List (Item ι)
  | [] => synthetic pending existing
  | .interrupt :: rest => synthetic pending existing ++ .interrupt :: replay [] [] rest
  | .failed :: rest => synthetic pending existing ++ replay [] [] rest
  | .calls ids :: rest => synthetic pending existing ++ .calls ids :: replay ids [] rest
  | .answer id :: rest => .answer id :: replay pending (existing ++ [id]) rest

/-! ## Regions -/

/-- Where in the sequence an answer stands: after the calls and other answers only, after a failed
message that nothing interrupted the calls before, or after an interruption. -/
inductive Region (ι : Type) where
  | direct (seen : List ι)
  | dropped
  | interrupted

/-- **Which sequences can be replayed**: an answer is to a call of the closest message that did not
fail; no failed message stands between them, and no other answer to the call, unless there is an
interruption before. -/
def Answerable (current : List ι) : Region ι → List (Item ι) → Prop
  | _, [] => True
  | _, .calls ids :: rest => Answerable ids (.direct []) rest
  | _, .interrupt :: rest => Answerable current .interrupted rest
  | .direct _, .failed :: rest => Answerable current .dropped rest
  | .dropped, .failed :: rest => Answerable current .dropped rest
  | .interrupted, .failed :: rest => Answerable current .interrupted rest
  | .direct seen, .answer id :: rest =>
    id ∈ current ∧ id ∉ seen ∧ Answerable current (.direct (seen ++ [id])) rest
  | .dropped, .answer _ :: _ => False
  | .interrupted, .answer id :: rest => id ∈ current ∧ Answerable current .interrupted rest

instance Answerable.decide : ∀ (current : List ι) (region : Region ι) (items : List (Item ι)),
    Decidable (Answerable current region items)
  | _, _, [] => .isTrue (by rw [Answerable]; trivial)
  | _, .direct _, .calls ids :: rest | _, .dropped, .calls ids :: rest
  | _, .interrupted, .calls ids :: rest => Answerable.decide ids (.direct []) rest
  | current, .direct _, .interrupt :: rest | current, .dropped, .interrupt :: rest
  | current, .interrupted, .interrupt :: rest => Answerable.decide current .interrupted rest
  | current, .direct _, .failed :: rest | current, .dropped, .failed :: rest =>
    Answerable.decide current .dropped rest
  | current, .interrupted, .failed :: rest => Answerable.decide current .interrupted rest
  | current, .direct seen, .answer id :: rest =>
    have := Answerable.decide current (.direct (seen ++ [id])) rest
    inferInstanceAs (Decidable (_ ∧ _))
  | _, .dropped, .answer _ :: _ => .isFalse id
  | current, .interrupted, .answer _ :: rest =>
    have := Answerable.decide current .interrupted rest
    inferInstanceAs (Decidable (_ ∧ _))

variable {current pending existing seen : List ι} {items rest : List (Item ι)}

theorem paired_append (l : List ι) :
    Paired current (l.map .answer ++ items) ↔ (∀ id ∈ l, id ∈ current) ∧ Paired current items := by
  induction l with
  | nil => simp
  | cons id l ih =>
    rw [List.map_cons, List.cons_append, Paired, ih, List.forall_mem_cons, and_assoc]

/-- The made up answers complete those that have come. -/
theorem count_synthetic (hcurrent : current.Nodup) (hseen : seen.Nodup) {id : ι} (hid : id ∈ current) :
    seen.count id + (current.filter fun id => id ∉ seen).count id = 1 := by
  by_cases hmem : id ∈ seen
  · rw [List.count_eq_one_of_mem hseen hmem, List.count_eq_zero_of_not_mem]
    simp [hmem]
  · rw [List.count_eq_zero_of_not_mem hmem, List.count_eq_one_of_mem (hcurrent.filter _)]
    simp [hmem, hid]

/-- The made up answers are to the current calls, and what follows them is as it was. -/
theorem paired_synthetic : Paired current (synthetic current seen ++ items) ↔ Paired current items := by
  rw [synthetic, paired_append]
  refine ⟨fun h => h.2, fun h => ⟨fun id hid => ?_, h⟩⟩
  exact List.mem_of_mem_filter hid

theorem answers_synthetic :
    answers (synthetic current seen ++ items) = (current.filter fun id => id ∉ seen) ++ answers items :=
  answers_append _ _

theorem synthetic_nil (existing : List ι) : synthetic [] existing = [] := rfl

/-- Where nothing is pending it does not matter what has come. -/
theorem replay_nil (existing : List ι) (items : List (Item ι)) : replay [] existing items = replay [] [] items := by
  induction items generalizing existing with
  | nil => rfl
  | cons item items ih =>
    cases item with
    | answer id =>
      rw [replay, replay, ih, ih ([] ++ [id])]
    | _ => rfl

/-- The calls that wait are completed by the answers that come and those that are made up, unless
more answers come after those. -/
theorem completed_iff (hcurrent : current.Nodup) (hseen : seen.Nodup) :
    (∀ id ∈ current, seen.count id + (answers (synthetic current seen ++ items)).count id = 1) ↔
      ∀ id ∈ current, id ∉ answers items := by
  refine forall₂_congr fun id hid => ?_
  rw [answers_synthetic, List.count_append, ← Nat.add_assoc, count_synthetic hcurrent hseen hid, ← List.count_eq_zero]
  omega

theorem answer_completes_iff {id : ι} (hid : id ∈ current) (hseen : seen.Nodup) :
    (∀ other ∈ current, seen.count other + (answers (.answer id :: items)).count other = 1) ↔
      id ∉ seen ∧ ∀ other ∈ current, (seen ++ [id]).count other + (answers items).count other = 1 := by
  have hsum : ∀ other, seen.count other + (answers (.answer id :: items)).count other =
      (seen ++ [id]).count other + (answers items).count other := by
    intro other
    rw [answers, List.count_append, List.count_cons, List.count_cons, List.count_nil]
    omega
  simp only [hsum]
  refine ⟨fun h => ⟨fun hmem => ?_, h⟩, fun h => h.2⟩
  have hone := h id hid
  rw [List.count_append, List.count_eq_one_of_mem hseen hmem, List.count_singleton_self] at hone
  omega

theorem paired_replay_regions (items : List (Item ι)) (hdistinct : DistinctCalls items) :
    (∀ current seen : List ι, current.Nodup → seen.Nodup →
      ((∀ id ∈ current, seen.count id + (answers (replay current seen items)).count id = 1) ∧
        Paired current (replay current seen items) ↔ Answerable current (.direct seen) items)) ∧
    (∀ current : List ι, ((∀ id ∈ current, id ∉ answers (replay [] [] items)) ∧ Paired current (replay [] [] items) ↔
        Answerable current .dropped items)) ∧
    ∀ current : List ι, (Paired current (replay [] [] items) ↔ Answerable current .interrupted items) := by
  induction items with
  | nil =>
    refine ⟨fun current seen hcurrent hseen => ?_, fun current => ?_, fun current => ?_⟩
    · rw [replay, ← List.append_nil (synthetic current seen), completed_iff hcurrent hseen, paired_synthetic]
      simp [answers, Paired, Answerable]
    · simp [replay, synthetic, answers, Paired, Answerable]
    · simp [replay, synthetic, Paired, Answerable]
  | cons item items ih =>
    obtain ⟨hdirect, hdropped, hinterrupted⟩ := ih hdistinct.tail
    cases item with
    | interrupt =>
      refine ⟨fun current seen hcurrent hseen => ?_, fun current => ?_, fun current => ?_⟩
      · rw [replay, completed_iff hcurrent hseen, paired_synthetic, Paired, hinterrupted, Answerable]
        simp [answers]
      · rw [replay, synthetic_nil, List.nil_append, Paired, hinterrupted, Answerable]
        simp [answers]
      · rw [replay, synthetic_nil, List.nil_append, Paired, hinterrupted, Answerable]
    | failed =>
      refine ⟨fun current seen hcurrent hseen => ?_, fun current => ?_, fun current => ?_⟩
      · rw [replay, completed_iff hcurrent hseen, paired_synthetic, hdropped, Answerable]
      · rw [replay, synthetic_nil, List.nil_append, hdropped, Answerable]
      · rw [replay, synthetic_nil, List.nil_append, hinterrupted, Answerable]
    -- New calls close the region before them in all three.
    | calls ids =>
      have hids : ids.Nodup := hdistinct ids List.mem_cons_self
      have hnext := hdirect ids [] hids List.nodup_nil
      simp only [List.count_nil, Nat.zero_add] at hnext
      refine ⟨fun current seen hcurrent hseen => ?_, fun current => ?_, fun current => ?_⟩
      · rw [replay, completed_iff hcurrent hseen, paired_synthetic, Paired, hnext, Answerable]
        simp [answers]
      · rw [replay, synthetic_nil, List.nil_append, Paired, hnext, Answerable]
        simp [answers]
      · rw [replay, synthetic_nil, List.nil_append, Paired, hnext, Answerable]
    | answer id =>
      refine ⟨fun current seen hcurrent hseen => ?_, fun current => ?_, fun current => ?_⟩
      · rw [replay, Paired, Answerable]
        constructor
        · rintro ⟨hcount, hid, hpaired⟩
          obtain ⟨hnew, hcount⟩ := (answer_completes_iff hid hseen).mp hcount
          have hseen' : (seen ++ [id]).Nodup := by
            rw [← List.concat_eq_append]
            exact hseen.concat hnew
          exact ⟨hid, hnew, (hdirect current _ hcurrent hseen').mp ⟨hcount, hpaired⟩⟩
        · rintro ⟨hid, hnew, hrest⟩
          have hseen' : (seen ++ [id]).Nodup := by
            rw [← List.concat_eq_append]
            exact hseen.concat hnew
          obtain ⟨hcount, hpaired⟩ := (hdirect current _ hcurrent hseen').mpr hrest
          exact ⟨(answer_completes_iff hid hseen).mpr ⟨hnew, hcount⟩, hid, hpaired⟩
      · rw [replay, Paired, Answerable]
        -- Behind a failed message no answer is allowed.
        refine ⟨fun h => h.1 id h.2.1 ?_, False.elim⟩
        exact List.mem_cons_self
      · rw [replay, replay_nil, Paired, hinterrupted, Answerable]

/-- **A replay is paired exactly if the sequence can be replayed.** -/
theorem paired_replay (items : List (Item ι)) (hdistinct : DistinctCalls items) :
    Paired [] (replay [] [] items) ↔ Answerable [] .interrupted items :=
  (paired_replay_regions items hdistinct).2.2 []

end Pairing
