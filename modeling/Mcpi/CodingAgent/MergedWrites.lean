import Mcpi.CodingAgent.SettingsFile

/-!
# Merged writes

A write replaces what its instance has changed since its last successful write or load, and nothing else, along
the runs in which an instance does not change anything while it has a write in its queue, and the file does not
come to exist between the check of a write and its lock.
-/

namespace Mcpi.CodingAgent.SettingsFile

/-! ## What is to hold -/

/-- A field, or a key of a field -/
def look (settings : Settings) : Target → Option Value
  | .field name => settings name
  | .key inField name => (entries (settings inField) name).map Value.json

/-- **A merge**: what has been changed is replaced, and every other field and key is left as it was. -/
structure Merged (before after values : Settings) (changed : List Target) : Prop where
  replaced : ∀ target ∈ changed, look after target = look values target
  otherFields : ∀ name, (∀ target ∈ changed, target.fieldName ≠ name) → after name = before name
  otherKeys : ∀ inField ∈ nestedFields, ∀ name, Target.key inField name ∉ changed →
    entries (after inField) name = entries (before inField) name

/-- The file has what is in the memory of an instance, or another instance wrote it later. -/
def System.Kept (s : System) (i : Nat) (settings : Settings) (target : Target) : Prop :=
  (∃ j, j ≠ i ∧ s.lastWriter target = some j) ∨
    ∃ content, s.file = some (some content) ∧ look content target = look settings target

/-- **Nobody's change is lost.** -/
structure System.Sound (s : System) : Prop where
  merged : ∀ written ∈ s.written, Merged written.before written.after written.values written.changed
  flushed : ∀ i, (s.managers i).queue = [] → (s.managers i).failed = false →
    (s.managers i).loadError = false → ∀ target ∈ (s.managers i).sets, s.Kept i (s.managers i).settings target

/-! ## The runs -/

/-- An instance changes its settings, or loads them, with no write in its queue, and a file that did not exist
at the check of a write does not exist when the lock has been taken. -/
def Careful (s : System) : Event → Prop
  | .set i _ => (s.managers i).queue.isEmpty = true
  | .reload i _ => (s.managers i).queue.isEmpty = true
  | .setProjectTrusted i _ _ => (s.managers i).queue.isEmpty = true
  | .acquire i =>
    match (s.managers i).phase with
    | .checked false => s.file.isNone = true
    | _ => True
  | _ => True

instance (s : System) (event : Event) : Decidable (Careful s event) := by
  unfold Careful
  split
  · infer_instance
  · infer_instance
  · infer_instance
  · split <;> infer_instance
  · infer_instance

/-! ## The invariant -/

/-- **The marks of an instance** are what has been changed. -/
structure SettingsManager.Marked (m : SettingsManager) : Prop where
  fields : ∀ name, name ∈ m.modifiedFields ↔ ∃ target ∈ m.changed, target.fieldName = name
  nested : ∀ inField name, (inField, name) ∈ m.modifiedNestedFields ↔ .key inField name ∈ m.changed
  valid : ∀ target ∈ m.sets, target.valid = true
  sets : ∀ target ∈ m.changed, target ∈ m.sets
  objects : ∀ inField name, .key inField name ∈ m.changed → ∃ values, m.settings inField = some (.object values)

/-- The write that a setter queues -/
def SettingsManager.snapshot (m : SettingsManager) : Write :=
  ⟨m.settings, m.modifiedFields, m.modifiedNestedFields⟩

/-- **The invariant.** -/
structure Inv (s : System) : Prop where
  marked : ∀ i, (s.managers i).Marked
  queued : ∀ i, (s.managers i).queue = [] ∨ (s.managers i).queue = [(s.managers i).snapshot]
  unsaved : ∀ i, (s.managers i).queue = [] →
    (s.managers i).changed = [] ∨ (s.managers i).failed = true ∨ (s.managers i).loadError = true
  lock : ∀ i, s.lock = some i ↔ ∃ current, (s.managers i).phase = .holding current
  current : ∀ i current, (s.managers i).phase = .holding current → s.file = current.map some
  kept : ∀ i, ∀ target ∈ (s.managers i).sets, target ∈ (s.managers i).changed ∨ s.Kept i (s.managers i).settings target
  merged : ∀ written ∈ s.written, Merged written.before written.after written.values written.changed

/-! ## Marks -/

theorem valid_field {name : String} (h : (Target.field name).valid = true) : name ∉ nestedFields := by
  intro hmem
  have h : (!nestedFields.contains name) = true := h
  rw [List.contains_iff_mem.mpr hmem] at h
  cases h

theorem valid_key {inField name : String} (h : (Target.key inField name).valid = true) :
    inField ∈ nestedFields := List.contains_iff_mem.mp h

variable {change : Change} {target : Target}

theorem look_apply_ne (settings : Settings)
    (hvalid : change.target.valid = true) (hvalid' : target.valid = true) (hne : change.target ≠ target) :
    look (settings.apply change) target = look settings target := by
  cases change with
  | field name value =>
    have hplain := valid_field hvalid
    cases target with
    | field name' =>
      exact if_neg fun hsame => hne (congrArg Target.field hsame.symm)
    | key inField name' =>
      have hnested := valid_key hvalid'
      have hother : inField ≠ name := fun hsame => hplain (hsame ▸ hnested)
      unfold look Settings.apply
      dsimp only
      rw [if_neg hother]
  | key inField name value =>
    have hnested := valid_key hvalid
    cases target with
    | field name' =>
      have hplain := valid_field hvalid'
      exact if_neg fun (hsame : name' = inField) => hplain (hsame ▸ hnested)
    | key inField' name' =>
      unfold look Settings.apply
      dsimp only
      by_cases hsame : inField' = inField
      · subst hsame
        have hkey : name' ≠ name := fun hsame => hne (congrArg (Target.key inField') hsame.symm)
        rw [if_pos rfl]
        unfold entries
        dsimp only
        rw [if_neg hkey]
      · rw [if_neg hsame]

theorem object_apply {settings : Settings} {inField name : String}
    (hvalid : change.target.valid = true) (hvalid' : (Target.key inField name).valid = true)
    (h : change.target = .key inField name ∨ ∃ values, settings inField = some (.object values)) :
    ∃ values, settings.apply change inField = some (.object values) := by
  cases change with
  | field name' value =>
    rcases h with hsame | ⟨values, hvalues⟩
    · cases hsame
    · have hother : inField ≠ name' := fun hsame => valid_field hvalid (hsame ▸ valid_key hvalid')
      exact ⟨values, (if_neg hother).trans hvalues⟩
  | key inField' name' value =>
    by_cases hsame : inField = inField'
    · exact ⟨_, if_pos hsame⟩
    · rcases h with hkey | ⟨values, hvalues⟩
      · cases hkey
        exact absurd rfl hsame
      · exact ⟨values, (if_neg hsame).trans hvalues⟩

/-- **A change is marked.** -/
theorem SettingsManager.Marked.mark {m : SettingsManager} (h : m.Marked)
    (hvalid : change.target.valid = true) : (m.mark change).Marked := by
  refine ⟨fun name => ?_, fun inField name => ?_, fun target hmem => ?_, fun target hmem => ?_,
    fun inField name hmem => ?_⟩
  · show name ∈ m.modifiedFields.insert _ ↔ ∃ target ∈ change.target :: m.changed, _
    rw [List.mem_insert_iff, h.fields, List.exists_mem_cons_iff]
    exact or_congr_left ⟨Eq.symm, Eq.symm⟩
  · show _ ↔ _ ∈ change.target :: m.changed
    rw [List.mem_cons]
    cases change with
    | field name' value =>
      rw [← h.nested]
      exact ⟨.inr, fun hor => hor.resolve_left nofun⟩
    | key inField' name' value =>
      show _ ∈ m.modifiedNestedFields.insert _ ↔ _
      rw [List.mem_insert_iff, h.nested]
      refine or_congr_left ⟨fun hsame => ?_, fun hsame => ?_⟩
      · cases hsame
        rfl
      · cases hsame
        rfl
  · rcases List.mem_cons.mp hmem with rfl | hin
    · exact hvalid
    · exact h.valid target hin
  · rcases List.mem_cons.mp hmem with rfl | hin
    · exact List.mem_cons_self
    · exact List.mem_cons_of_mem _ (h.sets target hin)
  · have hmem : Target.key inField name ∈ change.target :: m.changed := hmem
    have hvalid' : (Target.key inField name).valid = true := by
      rcases List.mem_cons.mp hmem with hsame | hin
      · rw [hsame]
        exact hvalid
      · exact h.valid _ (h.sets _ hin)
    refine object_apply hvalid hvalid' ?_
    rcases List.mem_cons.mp hmem with hsame | hin
    · exact .inl hsame.symm
    · exact .inr (h.objects inField name hin)

theorem SettingsManager.Marked.of_nil {m : SettingsManager} (hfields : m.modifiedFields = [])
    (hnested : m.modifiedNestedFields = []) (hchanged : m.changed = [])
    (hvalid : ∀ target ∈ m.sets, target.valid = true) : m.Marked := by
  refine ⟨fun name => ?_, fun inField name => ?_, hvalid, ?_, ?_⟩
  · rw [hfields, hchanged]
    exact ⟨nofun, fun ⟨_, hmem, _⟩ => nomatch hmem⟩
  · rw [hnested, hchanged]
    exact ⟨nofun, nofun⟩
  · rw [hchanged]
    exact nofun
  · rw [hchanged]
    exact nofun

/-! ## A write -/

section Persist

variable {w : Write} {name : String} (current : Settings)

theorem persist_unmarked (h : name ∉ w.modifiedFields) : persist w current name = current name :=
  if_neg h

theorem persist_field (h : name ∈ w.modifiedFields) (hnested : w.modifiedNestedFields.any (·.1 = name) = false) :
    persist w current name = w.settings name := by
  unfold persist
  rw [if_pos h, hnested]
  split
  next values hvalues =>
    rw [hvalues]
    rfl
  · rfl

theorem persist_keys {values : String → Option String} (h : name ∈ w.modifiedFields)
    (hnested : w.modifiedNestedFields.any (·.1 = name) = true)
    (hvalues : w.settings name = some (.object values)) :
    persist w current name = some (.object fun key =>
      if (name, key) ∈ w.modifiedNestedFields then values key else entries (current name) key) := by
  unfold persist
  rw [if_pos h, hvalues, hnested]
  rfl

end Persist

/-- **A write merges** what its instance has changed. -/
theorem merged_persist {m : SettingsManager} (h : m.Marked) (current : Settings) :
    Merged current (persist m.snapshot current) m.settings m.changed := by
  have hvalid : ∀ target ∈ m.changed, target.valid = true := fun target hmem =>
    h.valid target (h.sets target hmem)
  have hany : ∀ inField key, .key inField key ∈ m.changed →
      m.snapshot.modifiedNestedFields.any (·.1 = inField) = true := fun inField key hmem =>
    List.any_eq_true.mpr ⟨_, (h.nested inField key).mpr hmem, decide_eq_true rfl⟩
  constructor
  · intro target hmem
    have hmarked : target.fieldName ∈ m.snapshot.modifiedFields := (h.fields _).mpr ⟨target, hmem, rfl⟩
    cases target with
    | field name =>
      refine persist_field current hmarked ?_
      rw [List.any_eq_false]
      rintro ⟨inField, key⟩ hin hsame
      have hkey := hvalid _ ((h.nested inField key).mp hin)
      exact valid_field (hvalid _ hmem) (of_decide_eq_true hsame ▸ valid_key hkey)
    | key inField name =>
      obtain ⟨values, hvalues⟩ := h.objects inField name hmem
      unfold look
      dsimp only
      have hmarked : inField ∈ m.snapshot.modifiedFields := hmarked
      rw [persist_keys current hmarked (hany inField name hmem) hvalues, hvalues]
      exact congrArg _ (if_pos ((h.nested inField name).mpr hmem))
  · intro name hnone
    refine persist_unmarked current fun hmem => ?_
    obtain ⟨target, hin, hsame⟩ := (h.fields name).mp hmem
    exact hnone target hin hsame
  · intro inField hin name hnone
    by_cases hmarked : inField ∈ m.modifiedFields
    · obtain ⟨target, hmem, hsame⟩ := (h.fields inField).mp hmarked
      have hkey : ∃ key, Target.key inField key ∈ m.changed := by
        cases target with
        | field name' =>
          obtain rfl : name' = inField := hsame
          exact absurd hin (valid_field (hvalid _ hmem))
        | key inField' key =>
          obtain rfl : inField' = inField := hsame
          exact ⟨key, hmem⟩
      obtain ⟨key, hkey⟩ := hkey
      obtain ⟨values, hvalues⟩ := h.objects inField key hkey
      rw [persist_keys current hmarked (hany inField key hkey) hvalues]
      exact if_neg fun hnested => hnone ((h.nested inField name).mp hnested)
    · rw [persist_unmarked current hmarked]

theorem Merged.look_eq {before after values : Settings} {changed : List Target} (h : Merged before after values changed)
    (hvalid : ∀ target ∈ changed, target.valid = true) (hvalid' : target.valid = true)
    (hnot : target ∉ changed) : look after target = look before target := by
  cases target with
  | field name =>
    refine h.otherFields name fun target hmem hsame => ?_
    cases target with
    | field name' =>
      obtain rfl : name' = name := hsame
      exact hnot hmem
    | key inField key =>
      obtain rfl : inField = name := hsame
      exact valid_field hvalid' (valid_key (hvalid _ hmem))
  | key inField name =>
    unfold look
    dsimp only
    rw [h.otherKeys inField (valid_key hvalid') name hnot]

/-! ## Steps -/

section Steps

variable {scope : SettingsScope} {s s' : System} {i : Nat} {m : SettingsManager}

@[simp] theorem managers_set_self (s : System) (i : Nat) (m : SettingsManager) :
    (s.setManager i m).managers i = m := if_pos rfl

theorem managers_set_ne (s : System) {i j : Nat} (m : SettingsManager) (h : j ≠ i) :
    (s.setManager i m).managers j = s.managers j := if_neg h

/-- **One instance moves on**, and the file stays. -/
theorem Inv.set {u : System} (h : Inv s) (hmanagers : u.managers = s.managers) (hfile : u.file = s.file)
    (hwriter : u.lastWriter = s.lastWriter) (hwritten : u.written = s.written)
    (hothers : ∀ j, j ≠ i → (u.lock = some j ↔ s.lock = some j)) (hmarked : m.Marked)
    (hqueued : m.queue = [] ∨ m.queue = [m.snapshot])
    (hunsaved : m.queue = [] → m.changed = [] ∨ m.failed = true ∨ m.loadError = true)
    (hlock : u.lock = some i ↔ ∃ current, m.phase = .holding current)
    (hcurrent : ∀ current, m.phase = .holding current → s.file = current.map some)
    (hkept : ∀ target ∈ m.sets, target ∈ m.changed ∨ s.Kept i m.settings target) :
    Inv (u.setManager i m) := by
  have hself := managers_set_self u i m
  have hother : ∀ j, j ≠ i → (u.setManager i m).managers j = s.managers j := fun j hj => by
    rw [managers_set_ne u m hj, hmanagers]
  have hsame : ∀ j settings target, (u.setManager i m).Kept j settings target ↔
      s.Kept j settings target := fun j settings target => by
    show (_ ∨ ∃ content, u.file = _ ∧ _) ↔ _
    rw [hfile]
    show ((∃ k, _ ∧ u.lastWriter target = _) ∨ _) ↔ _
    rw [hwriter]
    exact Iff.rfl
  refine ⟨fun j => ?_, fun j => ?_, fun j => ?_, fun j => ?_, fun j => ?_, fun j => ?_, ?_⟩
  · by_cases hj : j = i
    · rw [hj, hself]
      exact hmarked
    · rw [hother j hj]
      exact h.marked j
  · by_cases hj : j = i
    · rw [hj, hself]
      exact hqueued
    · rw [hother j hj]
      exact h.queued j
  · by_cases hj : j = i
    · rw [hj, hself]
      exact hunsaved
    · rw [hother j hj]
      exact h.unsaved j
  · by_cases hj : j = i
    · rw [hj, hself]
      exact hlock
    · rw [hother j hj]
      exact (hothers j hj).trans (h.lock j)
  · show ∀ current, _ → u.file = _
    rw [hfile]
    by_cases hj : j = i
    · rw [hj, hself]
      exact hcurrent
    · rw [hother j hj]
      exact h.current j
  · simp only [hsame]
    by_cases hj : j = i
    · rw [hj, hself]
      exact hkept
    · rw [hother j hj]
      exact h.kept j
  · show ∀ written ∈ u.written, _
    rw [hwritten]
    exact h.merged

/-- An instance that is not writing does not hold the lock. -/
theorem not_locked (h : Inv s) (hphase : ∀ current, (s.managers i).phase ≠ .holding current) : s.lock ≠ some i := by
  intro hlock
  obtain ⟨current, hholding⟩ := (h.lock i).mp hlock
  exact hphase current hholding

/-- **A load** -/
theorem inv_loaded (h : Inv s) {result : Option Settings} {otherwise : Settings} {m₀ : SettingsManager}
    {created trusted : Bool} (hidle : (s.managers i).phase = .idle) (hphase : m₀.phase = .idle)
    (hqueue : m₀.queue = []) :
    Inv (s.setManager i { m₀.loaded result otherwise with created, projectTrusted := trusted }) := by
  refine h.set rfl rfl rfl rfl (fun _ _ => Iff.rfl) (.of_nil rfl rfl rfl nofun) (.inl hqueue)
    (fun _ => .inl rfl) ?_ (fun current hholding => ?_) nofun
  · constructor
    · intro hlock
      exact absurd hlock (not_locked h fun current => by rw [hidle]; nofun)
    · rintro ⟨current, hholding⟩
      have hholding : m₀.phase = _ := hholding
      rw [hphase] at hholding
      cases hholding
  · have hholding : m₀.phase = _ := hholding
    rw [hphase] at hholding
    cases hholding

/-- **A setter marks its changes.** -/
theorem marked_foldl (changes : List Change) (hvalid : ∀ change ∈ changes, change.target.valid = true)
    (hm : m.Marked) (hkept : ∀ target ∈ m.sets, target ∈ m.changed ∨ s.Kept i m.settings target) :
    (changes.foldl SettingsManager.mark m).Marked ∧ (∀ target ∈ (changes.foldl SettingsManager.mark m).sets,
        target ∈ (changes.foldl SettingsManager.mark m).changed ∨
          s.Kept i (changes.foldl SettingsManager.mark m).settings target) ∧
        (changes.foldl SettingsManager.mark m).queue = m.queue ∧
          (changes.foldl SettingsManager.mark m).phase = m.phase := by
  induction changes generalizing m with
  | nil => exact ⟨hm, hkept, rfl, rfl⟩
  | cons change changes ih =>
    have hchange := hvalid change List.mem_cons_self
    obtain ⟨hmarked, hkept', hqueue, hphase⟩ := ih
      (fun change' hmem => hvalid change' (List.mem_cons_of_mem _ hmem)) (hm.mark hchange)
      (fun target hmem => by
        by_cases hsame : change.target = target
        · exact .inl (List.mem_cons.mpr (.inl hsame.symm))
        · have hin : target ∈ m.sets :=
            (List.mem_cons.mp hmem).resolve_left fun heq => hsame heq.symm
          rcases hkept target hin with hchanged | hother | ⟨content, hfile, hlook⟩
          · exact .inl (List.mem_cons_of_mem _ hchanged)
          · exact .inr (.inl hother)
          · refine .inr (.inr ⟨content, hfile, hlook.trans ?_⟩)
            exact (look_apply_ne m.settings hchange (hm.valid target hin) hsame).symm)
    exact ⟨hmarked, hkept', hqueue, hphase⟩

theorem inv_setter {changes : List Change} (h : Inv s) (hempty : (s.managers i).queue = [])
    (hidle : (s.managers i).phase = .idle) (hvalid : ∀ change ∈ changes, change.target.valid = true) :
    Inv (s.setManager i (changes.foldl SettingsManager.mark (s.managers i)).save) := by
  obtain ⟨hmarked, hkept, hqueue, hphase⟩ := marked_foldl changes hvalid (h.marked i) (h.kept i)
  rw [hempty] at hqueue
  rw [hidle] at hphase
  have hnot : ¬ ∃ current, (changes.foldl SettingsManager.mark (s.managers i)).phase = .holding current := by
    rintro ⟨current, hholding⟩
    rw [hphase] at hholding
    cases hholding
  have hlock : s.lock = some i ↔ ∃ current,
      (changes.foldl SettingsManager.mark (s.managers i)).phase = .holding current := by
    constructor
    · intro hlock
      exact absurd hlock (not_locked h fun current => by rw [hidle]; nofun)
    · exact fun hholding => absurd hholding hnot
  unfold SettingsManager.save
  split
  next herror =>
    exact h.set rfl rfl rfl rfl (fun _ _ => Iff.rfl) hmarked (.inl hqueue) (fun _ => .inr (.inr herror))
      hlock (fun current hholding => absurd ⟨current, hholding⟩ hnot) hkept
  · rw [hqueue]
    exact h.set rfl rfl rfl rfl (fun _ _ => Iff.rfl)
      ⟨hmarked.fields, hmarked.nested, hmarked.valid, hmarked.sets, hmarked.objects⟩ (.inr rfl) nofun
      hlock (fun current hholding => absurd ⟨current, hholding⟩ hnot) hkept

theorem tail_queue (h : Inv s) : (s.managers i).queue.tail = [] := by
  rcases h.queued i with hqueue | hqueue <;> rw [hqueue] <;> rfl

/-- **A write fails**: its marks stay. -/
theorem inv_fail {lock : Option Nat} (h : Inv s) (hlock : lock ≠ some i)
    (hothers : ∀ j, j ≠ i → (lock = some j ↔ s.lock = some j)) :
    Inv ({ s with lock }.setManager i (s.managers i).fail) := by
  have hmarked := h.marked i
  refine h.set rfl rfl rfl rfl hothers
    ⟨hmarked.fields, hmarked.nested, hmarked.valid, hmarked.sets, hmarked.objects⟩ (.inl (tail_queue h))
    (fun _ => .inr (.inl rfl)) ⟨fun hlocked => absurd hlocked hlock, fun ⟨_, hholding⟩ => ?_⟩
    (fun _ hholding => ?_) (h.kept i)
  · cases hholding
  · cases hholding

theorem inv_phase {phase : Phase} {lock : Option Nat} (h : Inv s)
    (hothers : ∀ j, j ≠ i → (lock = some j ↔ s.lock = some j))
    (hlock : lock = some i ↔ ∃ current, phase = .holding current)
    (hcurrent : ∀ current, phase = .holding current → s.file = current.map some) :
    Inv ({ s with lock }.setManager i { s.managers i with phase }) := by
  have hmarked := h.marked i
  exact h.set rfl rfl rfl rfl hothers
    ⟨hmarked.fields, hmarked.nested, hmarked.valid, hmarked.sets, hmarked.objects⟩ (h.queued i)
    (h.unsaved i) hlock hcurrent (h.kept i)

theorem inv_begins (h : Inv s) (hstep : begins scope s i = some s') : Inv s' := by
  unfold begins at hstep
  dsimp only at hstep
  split at hstep
  next hidle _ =>
    have hfree := not_locked h fun current => by rw [hidle]; nofun
    split at hstep
    · cases hstep
      exact inv_fail h hfree fun _ _ => Iff.rfl
    · cases hstep
      refine inv_phase h (fun _ _ => Iff.rfl) ⟨fun hlocked => absurd hlocked hfree, ?_⟩ nofun
      rintro ⟨_, hholding⟩
      cases hholding
  · cases hstep

theorem lock_taken (hnone : s.lock = none) {j : Nat} (hj : j ≠ i) : some i = some j ↔ s.lock = some j := by
  rw [hnone]
  exact ⟨fun hsame => absurd (Option.some.inj hsame).symm hj, nofun⟩

theorem inv_acquire (h : Inv s) (hcareful : Careful s (.acquire i)) (hstep : acquire s i = some s') : Inv s' := by
  unfold acquire at hstep
  dsimp only at hstep
  split at hstep
  next hchecked hnone =>
    split at hstep
    next settings hfile =>
      cases hstep
      refine inv_phase h (fun j hj => lock_taken hnone hj) ⟨fun _ => ⟨_, rfl⟩, fun _ => rfl⟩ fun current hholding => ?_
      cases hholding
      exact hfile
    · cases hstep
      exact inv_fail h (by rw [hnone]; nofun) fun _ _ => Iff.rfl
  next hchecked hnone =>
    cases hstep
    unfold Careful at hcareful
    dsimp only at hcareful
    rw [hchecked] at hcareful
    refine inv_phase h (fun j hj => lock_taken hnone hj) ⟨fun _ => ⟨_, rfl⟩, fun _ => rfl⟩ fun current hholding => ?_
    cases hholding
    exact Option.isNone_iff_eq_none.mp hcareful
  · cases hstep

theorem writes_iff (hm : m.Marked) (hvalid : target.valid = true) :
    m.snapshot.writes target = true ↔ target ∈ m.changed := by
  cases target with
  | field name =>
    refine List.contains_iff_mem.trans ((hm.fields name).trans ⟨?_, fun hmem => ⟨_, hmem, rfl⟩⟩)
    rintro ⟨target, hmem, hsame⟩
    cases target with
    | field name' =>
      obtain rfl : name' = name := hsame
      exact hmem
    | key inField key =>
      obtain rfl : inField = name := hsame
      exact absurd (valid_key (hm.valid _ (hm.sets _ hmem))) (valid_field hvalid)
  | key inField name => exact List.contains_iff_mem.trans (hm.nested inField name)

/-- **A write.** -/
theorem inv_write (h : Inv s) (hstep : write s i = some s') : Inv s' := by
  unfold write at hstep
  dsimp only at hstep
  split at hstep
  next current w queue hholding hqueue =>
    cases hstep
    have hm := h.marked i
    have hlock : s.lock = some i := (h.lock i).mpr ⟨current, hholding⟩
    obtain ⟨rfl, rfl⟩ : w = (s.managers i).snapshot ∧ queue = [] := by
      rcases h.queued i with hempty | hone
      · rw [hempty] at hqueue
        cases hqueue
      · rw [hone] at hqueue
        cases hqueue
        exact ⟨rfl, rfl⟩
    have hcontent : s.content = current.getD .empty := by
      unfold System.content
      rw [h.current i current hholding]
      cases current with
      | none => rfl
      | some settings => rfl
    have hmerged := merged_persist hm (current.getD .empty)
    have hvalid : ∀ target ∈ (s.managers i).changed, target.valid = true := fun target hmem =>
      hm.valid target (hm.sets target hmem)
    -- what the others have saved is still there
    have hsaved : ∀ target, target.valid = true → target ∉ (s.managers i).changed → ∀ j settings,
        s.Kept j settings target → (∃ k, k ≠ j ∧ s.lastWriter target = some k) ∨
          look (persist (s.managers i).snapshot (current.getD .empty)) target = look settings target := by
      rintro target htarget hnot j settings (hother | ⟨content, hfile, hlook⟩)
      · exact .inl hother
      · refine .inr ((hmerged.look_eq hvalid htarget hnot).trans (Eq.trans ?_ hlook))
        unfold System.content at hcontent
        rw [hfile] at hcontent
        have hcontent : content = current.getD .empty := hcontent
        rw [hcontent]
    refine ⟨fun j => ?_, fun j => ?_, fun j => ?_, fun j => ?_, fun j content hphase => ?_,
      fun j target hmem => ?_, fun written hmem => ?_⟩
    · by_cases hj : j = i
      · rw [hj, managers_set_self]
        exact .of_nil rfl rfl rfl hm.valid
      · rw [managers_set_ne _ _ hj]
        exact h.marked j
    · by_cases hj : j = i
      · rw [hj, managers_set_self]
        exact .inl rfl
      · rw [managers_set_ne _ _ hj]
        exact h.queued j
    · by_cases hj : j = i
      · rw [hj, managers_set_self]
        exact fun _ => .inl rfl
      · rw [managers_set_ne _ _ hj]
        exact h.unsaved j
    · by_cases hj : j = i
      · rw [hj, managers_set_self]
        exact ⟨nofun, fun ⟨_, hphase⟩ => nomatch hphase⟩
      · rw [managers_set_ne _ _ hj]
        refine ⟨nofun, fun hphase => ?_⟩
        have hlocked := (h.lock j).mpr hphase
        rw [hlock] at hlocked
        exact absurd (Option.some.inj hlocked).symm hj
    · by_cases hj : j = i
      · rw [hj, managers_set_self] at hphase
        cases hphase
      · rw [managers_set_ne _ _ hj] at hphase
        have hlocked := (h.lock j).mpr ⟨content, hphase⟩
        rw [hlock] at hlocked
        exact absurd (Option.some.inj hlocked).symm hj
    · by_cases hj : j = i
      · subst hj
        rw [managers_set_self] at hmem ⊢
        have htarget := hm.valid target hmem
        by_cases hchanged : target ∈ (s.managers j).changed
        · exact .inr (.inr ⟨_, rfl, hmerged.replaced target hchanged⟩)
        · have hkept := (h.kept j target hmem).resolve_left hchanged
          rcases hsaved target htarget hchanged j _ hkept with ⟨k, hk, hwriter⟩ | hlook
          · refine .inr (.inl ⟨k, hk, ?_⟩)
            show (if _ then _ else _) = _
            rw [if_neg fun hwrites => hchanged ((writes_iff hm htarget).mp hwrites)]
            exact hwriter
          · exact .inr (.inr ⟨_, rfl, hlook⟩)
      · rw [managers_set_ne _ _ hj] at hmem ⊢
        have htarget := (h.marked j).valid target hmem
        refine (h.kept j target hmem).imp_right fun hkept => ?_
        by_cases hchanged : target ∈ (s.managers i).changed
        · refine .inl ⟨i, fun hsame => hj hsame.symm, ?_⟩
          show (if _ then _ else _) = _
          rw [if_pos ((writes_iff hm htarget).mpr hchanged)]
        · rcases hsaved target htarget hchanged j _ hkept with ⟨k, hk, hwriter⟩ | hlook
          · refine .inl ⟨k, hk, ?_⟩
            show (if _ then _ else _) = _
            rw [if_neg fun hwrites => hchanged ((writes_iff hm htarget).mp hwrites)]
            exact hwriter
          · exact .inr ⟨_, rfl, hlook⟩
    · rcases List.mem_append.mp hmem with hold | hnew
      · exact h.merged written hold
      · rw [List.mem_singleton.mp hnew, hcontent]
        exact hmerged
  · cases hstep

/-- **One step.** -/
theorem inv_step {event : Event} (h : Inv s) (hcareful : Careful s event)
    (hstep : step scope s event = some s') : Inv s' := by
  cases event with
  | create i projectTrusted fails =>
    unfold step at hstep
    dsimp only at hstep
    split at hstep
    next hidle =>
      split at hstep
      · cases hstep
      · cases hstep
        exact inv_loaded h hidle rfl rfl
    · cases hstep
  | set i changes =>
    unfold step at hstep
    dsimp only at hstep
    split at hstep
    next hidle =>
      split at hstep
      next hsets =>
        cases hstep
        exact inv_setter h (List.isEmpty_iff.mp hcareful) hidle hsets.2.1
      · cases hstep
    · cases hstep
  | begins i => exact inv_begins h hstep
  | acquire i => exact inv_acquire h hcareful hstep
  | write i => exact inv_write h hstep
  | fails i =>
    unfold step at hstep
    dsimp only at hstep
    split at hstep
    · cases hstep
    · cases hstep
      -- a call that fails gives up the lock if it holds it
      refine inv_fail h ?_ fun j hj => ?_
      · split
        · exact nofun
        next hfree => exact hfree
      · split
        next hlocked =>
          rw [hlocked]
          exact ⟨nofun, fun hsame => absurd (Option.some.inj hsame).symm hj⟩
        · exact Iff.rfl
  | reload i fails =>
    unfold step at hstep
    dsimp only at hstep
    split at hstep
    next hidle =>
      split at hstep
      · cases hstep
        exact inv_loaded h hidle hidle (List.isEmpty_iff.mp hcareful)
      · cases hstep
    · cases hstep
  | setProjectTrusted i trusted fails =>
    unfold step at hstep
    dsimp only at hstep
    split at hstep
    next hidle =>
      split at hstep
      · cases hstep
      · split at hstep
        · cases hstep
          exact inv_loaded h hidle hidle (List.isEmpty_iff.mp hcareful)
        · cases hstep
          exact inv_loaded h hidle hidle (List.isEmpty_iff.mp hcareful)
    · cases hstep

end Steps

/-! ## Runs -/

theorem inv_start (file : Option (Option Settings)) : Inv (.start file) := by
  refine ⟨fun _ => .of_nil rfl rfl rfl nofun, fun _ => .inl rfl, fun _ _ => .inl rfl,
    fun _ => ⟨nofun, fun ⟨_, hphase⟩ => nomatch hphase⟩, nofun, fun _ => nofun, nofun⟩

theorem sound_of_inv {s : System} (h : Inv s) : s.Sound := by
  refine ⟨h.merged, fun i hqueue hfailed herror target hmem => ?_⟩
  refine (h.kept i target hmem).resolve_left fun hchanged => ?_
  rcases h.unsaved i hqueue with hnone | hfail | hload
  · rw [hnone] at hchanged
    cases hchanged
  · rw [hfailed] at hfail
    cases hfail
  · rw [herror] at hload
    cases hload

/-- **Nobody's change is lost** along the careful runs. -/
theorem writes_merged (scope : SettingsScope) (file : Option (Option Settings)) (events : List Event)
    (h : Transition.Clean (step scope) Careful (.start file) events) :
    Transition.Always (step scope) System.Sound (.start file) events :=
  Transition.always_of_clean (fun _ => sound_of_inv)
    (fun _ _ _ hinv hcareful hstep => inv_step hinv hcareful hstep) (inv_start file) h

/-- Two instances write to a file that exists, one of them twice. -/
theorem writes_merged_two : Transition.Always (step .global) System.Sound (.start (some (some .empty)))
    [.create 0 true false, .create 1 true false, .set 0 [.field "theme" (some (.json "dark"))],
      .set 1 [.key "compaction" "enabled" (some "false")], .begins 0, .begins 1, .acquire 1, .write 1,
      .acquire 0, .write 0, .set 0 [.field "transport" none], .begins 0, .acquire 0, .write 0] :=
  writes_merged .global _ _ (by decide)

/-- Two instances find no file. The second one to write does not read what the first one has written. -/
theorem first_write_lost : ∃ scope file events, ¬ Transition.Always (step scope) System.Sound (.start file) events := by
  refine ⟨.global, none, [.create 0 true false, .create 1 true false,
    .set 0 [.field "theme" (some (.json "dark"))], .set 1 [.field "transport" (some (.json "sse"))],
    .begins 0, .begins 1, .acquire 1, .write 1, .acquire 0, .write 0], fun h => ?_⟩
  have hsound := h _ (List.prefix_refl _) _ rfl
  have hmerged := hsound.merged _ (List.mem_append_right _ (List.mem_singleton.mpr rfl))
  have hother := hmerged.otherFields "transport" (by decide)
  cases hother

end Mcpi.CodingAgent.SettingsFile
