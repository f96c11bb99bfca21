import Mcpi.Tools.EditDiff

/-!
# The line ends of a file

A file in its lines, each with the end it has, and what is left of the end when it is normalized and restored.
-/

namespace Mcpi.Tools.EditDiff

variable {text line : Text}

/-- The lines of a file, each with its end: `\n`, `\r\n` or `\r`. -/
def fileLines : Text → List Text
  | [] => []
  | u :: text =>
    if u = newline || (u = carriageReturn && text.head? ≠ some newline) then [u] :: fileLines text
    else
      match fileLines text with
      | [] => [[u]]
      | line :: lines => (u :: line) :: lines

def isLineEnd (u : UInt16) : Bool := u = newline || u = carriageReturn

/-- The end of a line. -/
def lineEnd (line : Text) : Text := line.rtakeWhile isLineEnd

def LineEnding.units : LineEnding → Text
  | .crlf => [carriageReturn, newline]
  | .lf => [newline]

theorem newline_ne_carriageReturn : newline ≠ carriageReturn := by decide

theorem normalizeToLF_cons {u : UInt16} (h : u ≠ carriageReturn) (text : Text) :
    normalizeToLF (u :: text) = u :: normalizeToLF text := by
  cases text with
  | nil => exact if_neg h
  | cons v text => exact if_neg h

theorem normalizeToLF_crlf (text : Text) :
    normalizeToLF (carriageReturn :: newline :: text) = newline :: normalizeToLF text := rfl

theorem normalizeToLF_cr (h : text.head? ≠ some newline) :
    normalizeToLF (carriageReturn :: text) = newline :: normalizeToLF text := by
  cases text with
  | nil => rfl
  | cons v text =>
    have hv : v ≠ newline := fun heq => h (congrArg some heq)
    exact if_neg hv

theorem fileLines_newline (text : Text) : fileLines (newline :: text) = [newline] :: fileLines text := by
  exact if_pos (by simp)

theorem fileLines_crlf (text : Text) :
    fileLines (carriageReturn :: newline :: text) = [carriageReturn, newline] :: fileLines text := by
  rw [fileLines, if_neg (by simp [newline_ne_carriageReturn.symm]), fileLines_newline]

theorem fileLines_cr (h : text.head? ≠ some newline) :
    fileLines (carriageReturn :: text) = [carriageReturn] :: fileLines text := by
  exact if_pos (by simp [h])

theorem fileLines_cons {u : UInt16} (hn : u ≠ newline) (hr : u ≠ carriageReturn) (text : Text) :
    fileLines (u :: text) = match fileLines text with
      | [] => [[u]]
      | line :: lines => (u :: line) :: lines := by
  exact if_neg (by simp [hn, hr])

/-! ## Normal form -/

/-- A property of files that goes from what is after a unit, or after `\r\n`, to the whole. -/
theorem text_induct {motive : Text → Prop} (nil : motive []) (lf : ∀ text, motive text → motive (newline :: text))
    (crlf : ∀ text, motive text → motive (carriageReturn :: newline :: text))
    (cr : ∀ text : Text, text.head? ≠ some newline → motive text → motive (carriageReturn :: text))
    (unit : ∀ u text, u ≠ newline → u ≠ carriageReturn → motive text → motive (u :: text)) (text : Text) :
    motive text := by
  induction hn : text.length using Nat.strongRecOn generalizing text with
  | ind n ih =>
    cases text with
    | nil => exact nil
    | cons u rest =>
      rw [List.length_cons] at hn
      have hrest := ih rest.length (by omega) rest rfl
      by_cases hlf : u = newline
      · rw [hlf]
        exact lf rest hrest
      · by_cases hcr : u = carriageReturn
        · rw [hcr]
          by_cases hhead : rest.head? = some newline
          · cases rest with
            | nil => cases hhead
            | cons v more =>
              cases hhead
              rw [List.length_cons] at hn
              exact crlf more (ih more.length (by omega) more rfl)
          · exact cr rest hhead hrest
        · exact unit u rest hlf hcr hrest

/-- The lines of the normalized content are the lines of the file, normalized. -/
theorem splitLines_normalizeToLF (text : Text) :
    splitLinesWithEndings (normalizeToLF text) = (fileLines text).map normalizeToLF := by
  unfold splitLinesWithEndings
  induction text using text_induct with
  | nil => rfl
  | lf text ih =>
    rw [normalizeToLF_cons newline_ne_carriageReturn, Separated.pieces, if_pos rfl, ih, fileLines_newline,
      List.map_cons]
    rfl
  | crlf text ih =>
    rw [normalizeToLF_crlf, Separated.pieces, if_pos rfl, ih, fileLines_crlf, List.map_cons]
    rfl
  | cr text h ih =>
    rw [normalizeToLF_cr h, Separated.pieces, if_pos rfl, ih, fileLines_cr h, List.map_cons]
    rfl
  | unit u text hn hr ih =>
    rw [normalizeToLF_cons hr, Separated.pieces, if_neg hn, ih, fileLines_cons hn hr]
    cases fileLines text with
    | nil => rw [List.map_nil, List.map_singleton, normalizeToLF_cons hr, normalizeToLF]
    | cons line lines => rw [List.map_cons, List.map_cons, normalizeToLF_cons hr]

/-- A line is a text without line ends and one of the ends, or none. -/
structure IsLine (line body lineEnd : Text) : Prop where
  parts : line = body ++ lineEnd
  clean : ∀ u ∈ body, isLineEnd u = false
  known : lineEnd = [] ∨ lineEnd = [newline] ∨ lineEnd = [carriageReturn, newline] ∨ lineEnd = [carriageReturn]

theorem isLine_of_mem (text : Text) : ∀ line ∈ fileLines text, ∃ body lineEnd, IsLine line body lineEnd := by
  induction text using text_induct with
  | nil => exact nofun
  | lf text ih =>
    rw [fileLines_newline]
    intro line hline
    rcases List.mem_cons.mp hline with rfl | hrest
    · exact ⟨[], [newline], rfl, nofun, .inr (.inl rfl)⟩
    · exact ih line hrest
  | crlf text ih =>
    rw [fileLines_crlf]
    intro line hline
    rcases List.mem_cons.mp hline with rfl | hrest
    · exact ⟨[], [carriageReturn, newline], rfl, nofun, .inr (.inr (.inl rfl))⟩
    · exact ih line hrest
  | cr text h ih =>
    rw [fileLines_cr h]
    intro line hline
    rcases List.mem_cons.mp hline with rfl | hrest
    · exact ⟨[], [carriageReturn], rfl, nofun, .inr (.inr (.inr rfl))⟩
    · exact ih line hrest
  | unit u text hn hr ih =>
    have hu : isLineEnd u = false := by simp [isLineEnd, hn, hr]
    rw [fileLines_cons hn hr]
    cases hlines : fileLines text with
    | nil =>
      intro line hline
      rw [List.mem_singleton.mp hline]
      refine ⟨[u], [], rfl, fun v hv => ?_, .inl rfl⟩
      rw [List.mem_singleton.mp hv]
      exact hu
    | cons first lines =>
      rw [hlines] at ih
      intro line hline
      rcases List.mem_cons.mp hline with rfl | hrest
      · obtain ⟨body, lineEnd, hparts, hclean, hknown⟩ := ih first (by simp)
        refine ⟨u :: body, lineEnd, by rw [hparts, List.cons_append], fun v hv => ?_, hknown⟩
        rcases List.mem_cons.mp hv with rfl | hin
        · exact hu
        · exact hclean v hin
      · exact ih line (List.mem_cons_of_mem _ hrest)

theorem lineEnd_eq {body tail : Text} (h : IsLine line body tail) : lineEnd line = tail := by
  have htail : ∀ u ∈ tail.reverse, isLineEnd u = true := by
    rcases h.known with rfl | rfl | rfl | rfl <;> simp [isLineEnd]
  have hbody : body.reverse.takeWhile isLineEnd = [] := by
    cases hreverse : body.reverse with
    | nil => rfl
    | cons u more =>
      have hu : u ∈ body := List.mem_reverse.mp (by rw [hreverse]; exact List.mem_cons_self)
      rw [List.takeWhile_cons, h.clean u hu]
      rfl
  rw [lineEnd, h.parts, List.rtakeWhile, List.reverse_append, List.takeWhile_append_of_pos htail, hbody,
    List.append_nil, List.reverse_reverse]

theorem normalizeToLF_body {body : Text} (h : ∀ u ∈ body, isLineEnd u = false) (text : Text) :
    normalizeToLF (body ++ text) = body ++ normalizeToLF text := by
  induction body with
  | nil => rfl
  | cons u body ih =>
    have hu : u ≠ carriageReturn := by
      rintro rfl
      exact absurd (h carriageReturn (by simp)) (by decide)
    rw [List.cons_append, normalizeToLF_cons hu, ih fun v hv => h v (List.mem_cons_of_mem _ hv), List.cons_append]

/-! ## Restoring -/

theorem restoreLineEndings_append (a b : Text) (ending : LineEnding) :
    restoreLineEndings (a ++ b) ending = restoreLineEndings a ending ++ restoreLineEndings b ending := by
  cases ending with
  | lf => rfl
  | crlf => exact List.flatMap_append

theorem restoreLineEndings_body {body : Text} (h : ∀ u ∈ body, isLineEnd u = false) (ending : LineEnding) :
    restoreLineEndings body ending = body := by
  cases ending with
  | lf => rfl
  | crlf =>
    induction body with
    | nil => rfl
    | cons u body ih =>
      have hu : u ≠ newline := by
        rintro rfl
        exact absurd (h newline (by simp)) (by decide)
      have hrest := ih fun v hv => h v (List.mem_cons_of_mem _ hv)
      rw [restoreLineEndings] at hrest ⊢
      rw [List.flatMap_cons, hrest, if_neg hu, List.singleton_append]

/-- A line of a file is restored exactly where its end is the one that was detected, or it has none. -/
theorem restored_iff (ending : LineEnding) (h : line ∈ fileLines text) :
    restoreLineEndings (normalizeToLF line) ending = line ↔ lineEnd line = [] ∨ lineEnd line = ending.units := by
  obtain ⟨body, tail, hline⟩ := isLine_of_mem text line h
  rw [lineEnd_eq hline, hline.parts, normalizeToLF_body hline.clean, restoreLineEndings_append,
    restoreLineEndings_body hline.clean, List.append_cancel_left_eq]
  rcases hline.known with rfl | rfl | rfl | rfl <;> cases ending <;> decide

theorem restoreLineEndings_flatten (lines : List Text) (ending : LineEnding) :
    restoreLineEndings lines.flatten ending = (lines.map fun line => restoreLineEndings line ending).flatten := by
  induction lines with
  | nil => cases ending <;> rfl
  | cons line lines ih => rw [List.flatten_cons, restoreLineEndings_append, ih, List.map_cons, List.flatten_cons]

end Mcpi.Tools.EditDiff
