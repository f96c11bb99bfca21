import Mcpi.Tools.EditDiff

/-!
# The normalized copy and its matches

Normalization works on each line by itself. Where the last line is only whitespace and has no line end, the
copy has a line less, and no match in it can be applied.
-/

namespace Mcpi.Tools.EditDiff

variable {nfkc : Nfkc} {content text line : Text}

/-! ## Line by line -/

/-- The normalized copy of a line. -/
def normalizeLine (nfkc : Nfkc) (line : Text) : Text := (trimEnd (nfkc.normalize line)).map toAscii

theorem map_join {α β : Type} (f : α → β) (sep : α) (parts : List (List α)) :
    (List.intercalate [sep] parts).map f = List.intercalate [f sep] (parts.map (List.map f)) := by
  induction parts with
  | nil => rfl
  | cons part parts ih => cases parts <;> simp_all

theorem toAscii_newline : toAscii newline = newline := by decide

theorem toAscii_eq_newline {u : UInt16} (h : toAscii u = newline) : u = newline := by
  unfold toAscii at h
  split at h
  · exact absurd h (by decide)
  · split at h
    · exact absurd h (by decide)
    · split at h
      · exact absurd h (by decide)
      · split at h
        · exact absurd h (by decide)
        · exact h

theorem nfkc_normalize_eq (nfkc : Nfkc) (text : Text) : nfkc.normalize text =
    List.intercalate [newline] ((List.splitOn newline text).map nfkc.normalize) := by
  induction text using Separated.induct newline with
  | last part hpart => rw [List.splitOn_eq_singleton hpart, List.map_singleton, List.intercalate_singleton]
  | more part rest hpart ih =>
    have hne : (List.splitOn newline rest).map nfkc.normalize ≠ [] :=
      fun h => List.splitOn_ne_nil newline rest (List.map_eq_nil_iff.mp h)
    rw [nfkc.overNewline, ih, List.splitOn_append_cons_self_of_not_mem hpart, List.map_cons, Separated.join_cons hne]

theorem newline_not_mem_normalizeLine (h : newline ∉ line) : newline ∉ normalizeLine nfkc line := by
  intro hmem
  obtain ⟨u, hu, hline⟩ := List.mem_map.mp hmem
  rw [toAscii_eq_newline hline] at hu
  exact nfkc.clean line h ((List.rdropWhile_prefix _ _).subset hu)

theorem normalizeForFuzzyMatch_eq (nfkc : Nfkc) (text : Text) : normalizeForFuzzyMatch nfkc text =
    List.intercalate [newline] ((List.splitOn newline text).map (normalizeLine nfkc)) := by
  have hne : (List.splitOn newline text).map nfkc.normalize ≠ [] :=
    fun h => List.splitOn_ne_nil newline text (List.map_eq_nil_iff.mp h)
  have hclean : ∀ part ∈ (List.splitOn newline text).map nfkc.normalize, newline ∉ part := by
    intro part hpart
    obtain ⟨line, hline, rfl⟩ := List.mem_map.mp hpart
    exact nfkc.clean line (Separated.not_mem_split newline text line hline)
  rw [normalizeForFuzzyMatch, nfkc_normalize_eq, List.splitOn_intercalate newline hclean hne, map_join, toAscii_newline,
    List.map_map, List.map_map]
  rfl

theorem split_normalizeForFuzzyMatch (nfkc : Nfkc) (text : Text) :
    List.splitOn newline (normalizeForFuzzyMatch nfkc text) =
      (List.splitOn newline text).map (normalizeLine nfkc) := by
  rw [normalizeForFuzzyMatch_eq]
  refine List.splitOn_intercalate newline (fun part hpart => ?_)
    fun h => List.splitOn_ne_nil newline text (List.map_eq_nil_iff.mp h)
  obtain ⟨line, hline, rfl⟩ := List.mem_map.mp hpart
  exact newline_not_mem_normalizeLine (Separated.not_mem_split newline text line hline)

theorem normalizeForFuzzyMatch_line (h : newline ∉ line) :
    normalizeForFuzzyMatch nfkc line = normalizeLine nfkc line := by
  rw [normalizeForFuzzyMatch_eq, List.splitOn_eq_singleton h, List.map_singleton, List.intercalate_singleton]

/-! ## Normalizing twice -/

theorem isWhitespace_of_toAscii {u : UInt16} (h : isWhitespace (toAscii u) = true) : isWhitespace u = true := by
  unfold toAscii at h
  split at h
  · exact absurd h (by decide)
  · split at h
    · exact absurd h (by decide)
    · split at h
      · exact absurd h (by decide)
      · split at h
        next hspace =>
          simp only [Bool.or_eq_true, Bool.and_eq_true, decide_eq_true_eq] at hspace
          unfold isWhitespace
          simp only [Bool.or_eq_true, Bool.and_eq_true, decide_eq_true_eq]
          rcases hspace with (((rfl | ⟨hlo, hhi⟩) | rfl) | rfl) | rfl
          · exact .inl (by decide)
          · refine .inr ⟨?_, hhi⟩
            exact UInt16.le_trans (by decide) hlo
          · exact .inl (by decide)
          · exact .inl (by decide)
          · exact .inl (by decide)
        · exact h

theorem toAscii_toAscii (u : UInt16) : toAscii (toAscii u) = toAscii u := by
  by_cases h : toAscii u = u
  · rw [h, h]
  · unfold toAscii at h ⊢
    split
    · rfl
    · split
      · rfl
      · split
        · rfl
        · split
          · rfl
          next h₁ h₂ h₃ h₄ => rw [if_neg h₁, if_neg h₂, if_neg h₃, if_neg h₄] at h

theorem normalizeLine_idempotent (nfkc : Nfkc) (line : Text) :
    normalizeLine nfkc (normalizeLine nfkc line) = normalizeLine nfkc line := by
  have htrimmed : nfkc.normalize (trimEnd (nfkc.normalize line)) = trimEnd (nfkc.normalize line) := by
    obtain ⟨rest, hrest⟩ := List.rdropWhile_prefix isWhitespace (nfkc.normalize line)
    apply nfkc.beginning _ rest
    rw [show trimEnd (nfkc.normalize line) ++ rest = nfkc.normalize line from hrest, nfkc.idempotent]
  have htrimEnd : trimEnd ((trimEnd (nfkc.normalize line)).map toAscii) =
      (trimEnd (nfkc.normalize line)).map toAscii := by
    apply List.rdropWhile_eq_self_iff.mpr
    intro hne hspace
    rw [List.getLast_map] at hspace
    exact List.rdropWhile_last_not isWhitespace (nfkc.normalize line) (fun h => hne (by
      rw [trimEnd, h, List.map_nil])) (isWhitespace_of_toAscii hspace)
  rw [normalizeLine, normalizeLine, nfkc.ascii _ htrimmed, htrimEnd, List.map_map]
  congr 1
  funext u
  exact toAscii_toAscii u

theorem normalizeForFuzzyMatch_idempotent (nfkc : Nfkc) (text : Text) :
    normalizeForFuzzyMatch nfkc (normalizeForFuzzyMatch nfkc text) = normalizeForFuzzyMatch nfkc text := by
  rw [normalizeForFuzzyMatch_eq nfkc (normalizeForFuzzyMatch nfkc text), split_normalizeForFuzzyMatch,
    List.map_map, normalizeForFuzzyMatch_eq]
  congr 2
  funext line
  exact normalizeLine_idempotent nfkc line

/-! ## Parts of a text -/

/-- The lines without the whitespace at their ends. -/
def trimLines (text : Text) : Text := List.intercalate [newline] ((List.splitOn newline text).map trimEnd)

theorem trimEnd_append (a b : Text) : trimEnd (a ++ b) = if trimEnd b = [] then trimEnd a else a ++ trimEnd b := by
  simp only [trimEnd, List.rdropWhile, List.reverse_append, List.dropWhile_append, List.reverse_eq_nil_iff,
    List.isEmpty_iff]
  split
  · rfl
  · rw [List.reverse_append, List.reverse_reverse]

theorem trimLines_part (h : newline ∉ line) : trimLines line = trimEnd line := by
  rw [trimLines, List.splitOn_eq_singleton h, List.map_singleton, List.intercalate_singleton]

theorem trimLines_line (h : newline ∉ line) (text : Text) :
    trimLines (line ++ newline :: text) = trimEnd line ++ newline :: trimLines text := by
  rw [trimLines, List.splitOn_append_cons_self_of_not_mem h, List.map_cons, Separated.join_cons, trimLines]
  exact fun hnil => List.splitOn_ne_nil newline text (List.map_eq_nil_iff.mp hnil)

theorem trimEnd_prefix (line : Text) : ∃ spaces, line = trimEnd line ++ spaces := by
  obtain ⟨spaces, h⟩ := List.rdropWhile_prefix isWhitespace line
  exact ⟨spaces, h.symm⟩

theorem trimEnd_gap (a b : Text) : ∃ gap, trimEnd (a ++ b) = trimEnd a ++ gap ++ trimEnd b := by
  rw [trimEnd_append]
  split
  next h => exact ⟨[], by rw [h, List.append_nil, List.append_nil]⟩
  · obtain ⟨spaces, hspaces⟩ := trimEnd_prefix a
    exact ⟨spaces, by rw [← hspaces]⟩

/-- What is trimmed of two parts together is trimmed of each of them, up to whitespace between them. -/
theorem trimLines_append (a b : Text) : ∃ gap, trimLines (a ++ b) = trimLines a ++ gap ++ trimLines b := by
  induction a using Separated.induct newline with
  | last a ha =>
    rcases Separated.cases_split newline b with hb | ⟨line, rest, rfl, hline⟩
    · have hab : newline ∉ a ++ b := fun h => (List.mem_append.mp h).elim ha hb
      rw [trimLines_part hab, trimLines_part ha, trimLines_part hb]
      exact trimEnd_gap a b
    · have hfirst : newline ∉ a ++ line := fun h => (List.mem_append.mp h).elim ha hline
      obtain ⟨gap, hgap⟩ := trimEnd_gap a line
      refine ⟨gap, ?_⟩
      rw [← List.append_assoc, trimLines_line hfirst, trimLines_part ha, trimLines_line hline, hgap, List.append_assoc]
  | more line rest hline ih =>
    obtain ⟨gap, hgap⟩ := ih
    refine ⟨gap, ?_⟩
    rw [List.append_assoc, List.cons_append, trimLines_line hline, hgap, trimLines_line hline]
    simp only [List.append_assoc, List.cons_append]

/-- NFKC joins none of five parts to the next. -/
def Separable (nfkc : Nfkc) (a b c d e : Text) : Prop :=
  nfkc.normalize (a ++ b ++ c ++ d ++ e) =
    nfkc.normalize a ++ nfkc.normalize b ++ nfkc.normalize c ++ nfkc.normalize d ++ nfkc.normalize e

/-- The normalized copies of parts that NFKC does not join are apart in the normalized copy of the whole. -/
theorem normalizeForFuzzyMatch_parts {a b c d e : Text} (h : Separable nfkc a b c d e) :
    ∃ before between after, normalizeForFuzzyMatch nfkc (a ++ b ++ c ++ d ++ e) =
      before ++ normalizeForFuzzyMatch nfkc b ++ between ++ normalizeForFuzzyMatch nfkc d ++ after := by
  obtain ⟨gapE, hE⟩ := trimLines_append
    (nfkc.normalize a ++ nfkc.normalize b ++ nfkc.normalize c ++ nfkc.normalize d) (nfkc.normalize e)
  obtain ⟨gapD, hD⟩ := trimLines_append (nfkc.normalize a ++ nfkc.normalize b ++ nfkc.normalize c) (nfkc.normalize d)
  obtain ⟨gapC, hC⟩ := trimLines_append (nfkc.normalize a ++ nfkc.normalize b) (nfkc.normalize c)
  obtain ⟨gapB, hB⟩ := trimLines_append (nfkc.normalize a) (nfkc.normalize b)
  refine ⟨(trimLines (nfkc.normalize a) ++ gapB).map toAscii,
    (gapC ++ trimLines (nfkc.normalize c) ++ gapD).map toAscii,
    (gapE ++ trimLines (nfkc.normalize e)).map toAscii, ?_⟩
  have hwhole : normalizeForFuzzyMatch nfkc (a ++ b ++ c ++ d ++ e) = (trimLines (nfkc.normalize a ++
      nfkc.normalize b ++ nfkc.normalize c ++ nfkc.normalize d ++ nfkc.normalize e)).map toAscii := by
    rw [← h]
    rfl
  rw [hwhole, hE, hD, hC, hB]
  simp only [List.map_append, List.append_assoc]
  rfl

end Mcpi.Tools.EditDiff
