import Mathlib.Algebra.Ring.Nat
import Mathlib.Data.List.DropRight
import PipeSheet.Text.Blank
import PipeSheet.Text.Pieces
/-!
# PipeSheet.Proofs.Text.Pieces

**The pieces of a text, with separators between them, are the text again.**

So a piece stands in the text at its offset, and all pieces together are not longer than the text.
Offsets count bytes: between two pieces they allow for one, so the separator has to be a character
of one byte.
-/

namespace PipeSheet.Text

variable {sep : Char} {s : List Char} {start : Nat} {texts : List (List Char)}

theorem pieces_eq_splitOn (sep : Char) (s : List Char) : pieces sep s = s.splitOn sep := by
  induction s with
  | nil => rfl
  | cons c rest ih =>
      rw [List.splitOn_cons_eq_if_modifyHead, ← ih]
      by_cases hc : c = sep
      · subst hc
        simp
      · obtain ⟨first, others, hpieces⟩ := List.exists_cons_of_ne_nil (pieces_ne_nil sep rest)
        rw [pieces_cons_of_ne hc, hpieces]
        simp [hc]

theorem intercalate_pieces (sep : Char) (s : List Char) :
    [sep].intercalate (pieces sep s) = s := by
  rw [pieces_eq_splitOn, List.intercalate_splitOn]

theorem lines_prefix (s : List Char) : lines s <+: pieces '\n' s := by
  unfold lines
  dsimp only
  split
  · exact List.dropLast_prefix _
  · exact List.prefix_rfl

/-! ### Texts put together -/

/-- Texts without the separator are the pieces of what they make when put together. -/
theorem pieces_intercalate (hne : texts ≠ []) (h : ∀ text ∈ texts, sep ∉ text) :
    pieces sep ([sep].intercalate texts) = texts := by
  rw [pieces_eq_splitOn, List.splitOn_intercalate sep h hne]

theorem mem_intercalate {α : Type} {sep c : α} {texts : List (List α)}
    (h : c ∈ [sep].intercalate texts) : c = sep ∨ ∃ text ∈ texts, c ∈ text := by
  induction texts with
  | nil => cases h
  | cons text rest ih =>
      cases rest with
      | nil =>
          rw [List.intercalate_singleton] at h
          exact .inr ⟨text, List.mem_cons_self, h⟩
      | cons next rest =>
          rw [List.intercalate_cons_cons] at h
          simp only [List.mem_append, List.mem_singleton] at h
          rcases h with (h | h) | h
          · exact .inr ⟨text, List.mem_cons_self, h⟩
          · exact .inl h
          · rcases ih h with h | ⟨other, hother, h⟩
            · exact .inl h
            · exact .inr ⟨other, List.mem_cons_of_mem _ hother, h⟩

/-- A part between separators has none of them, and nothing that the whole does not have. -/
theorem mem_splitOn {α : Type} [BEq α] [LawfulBEq α] {x : α} {s part : List α}
    (h : part ∈ s.splitOn x) : x ∉ part ∧ ∀ y ∈ part, y ∈ s := by
  induction s generalizing part with
  | nil =>
      rw [List.splitOn_nil, List.mem_singleton] at h
      subst h
      simp
  | cons a rest ih =>
      rw [List.splitOn_cons_eq_if_modifyHead] at h
      by_cases ha : a = x
      · subst ha
        rw [if_pos (beq_self_eq_true a), List.mem_cons] at h
        rcases h with rfl | h
        · simp
        · exact ⟨(ih h).1, fun y hy => List.mem_cons_of_mem _ ((ih h).2 y hy)⟩
      · obtain ⟨first, others, hparts⟩ := List.exists_cons_of_ne_nil (List.splitOn_ne_nil x rest)
        rw [if_neg (by simpa using ha), hparts, List.modifyHead_cons, List.mem_cons] at h
        rcases h with rfl | h
        · have hfirst := @ih first (by simp [hparts])
          have hin : ∀ y ∈ first, y ∈ a :: rest :=
            fun y hy => List.mem_cons_of_mem _ (hfirst.2 y hy)
          exact ⟨by simp [Ne.symm ha, hfirst.1], List.forall_mem_cons.2 ⟨List.mem_cons_self, hin⟩⟩
        · have hother := @ih part (by simp [hparts, h])
          exact ⟨hother.1, fun y hy => List.mem_cons_of_mem _ (hother.2 y hy)⟩

theorem not_mem_of_mem_pieces {text : List Char} (h : text ∈ pieces sep s) : sep ∉ text := by
  rw [pieces_eq_splitOn] at h
  exact (mem_splitOn h).1

/-- Every line ends with a line end, the last one as well. -/
theorem lines_flatMap (h : ∀ text ∈ texts, '\n' ∉ text) :
    lines (texts.flatMap fun text => text ++ ['\n']) = texts := by
  have hjoin : (texts.flatMap fun text => text ++ ['\n']) = ['\n'].intercalate (texts ++ [[]]) := by
    clear h
    induction texts with
    | nil => rfl
    | cons text rest ih =>
        rw [List.flatMap_cons, ih, List.cons_append,
          List.intercalate_cons_of_ne_nil (List.append_ne_nil_of_right_ne_nil _ (by simp))]
  have hends : ∀ text ∈ texts ++ [[]], '\n' ∉ text := by
    intro text htext
    rcases List.mem_append.1 htext with htext | htext
    · exact h text htext
    · simp [List.mem_singleton.1 htext]
  rw [lines, hjoin, pieces_intercalate (by simp) hends]
  simp

/-! ### Lengths -/

theorem sum_length_le_intercalate (sep : Char) (texts : List (List Char)) :
    (texts.map List.length).sum ≤ ([sep].intercalate texts).length := by
  induction texts with
  | nil => simp
  | cons text rest ih =>
      cases rest with
      | nil => simp
      | cons next rest =>
          rw [List.intercalate_cons_cons]
          simp only [List.map_cons, List.sum_cons, List.length_append] at ih ⊢
          omega

theorem sum_length_pieces_le (sep : Char) (s : List Char) :
    ((pieces sep s).map List.length).sum ≤ s.length := by
  have h := sum_length_le_intercalate sep (pieces sep s)
  rwa [intercalate_pieces] at h

theorem sum_length_lines_le (s : List Char) : ((lines s).map List.length).sum ≤ s.length := by
  obtain ⟨last, hlast⟩ := lines_prefix s
  have h := sum_length_pieces_le '\n' s
  rw [← hlast, List.map_append, List.sum_append] at h
  omega

/-- Behind its blanks, a text is what is left of it when trimmed, and blanks again. -/
theorem exists_trimStart_eq (s : List Char) :
    ∃ blanks, (∀ c ∈ blanks, isBlank c) ∧ trimStart s = trim s ++ blanks := by
  refine ⟨((trimStart s).reverse.takeWhile isBlank).reverse, fun c hc => ?_, ?_⟩
  · exact List.all_eq_true.1 List.all_takeWhile c (List.mem_reverse.1 hc)
  · rw [trim, trimEnd, ← List.reverse_append, List.takeWhile_append_dropWhile, List.reverse_reverse]

/-- A text is its blanks, what is left of it when trimmed, and blanks again. -/
theorem exists_eq_trim_append (s : List Char) :
    ∃ blanks, s = indent s ++ trim s ++ blanks := by
  obtain ⟨blanks, _, hs⟩ := exists_trimStart_eq s
  exact ⟨blanks, by rw [List.append_assoc, ← hs, indent_append_trimStart]⟩

theorem length_trim_le (s : List Char) : (trim s).length ≤ s.length := by
  obtain ⟨blanks, hs⟩ := exists_eq_trim_append s
  have hlength := congrArg List.length hs
  simp only [List.length_append] at hlength
  omega

/-! ### Trimming -/

theorem mem_of_mem_trim {c : Char} (h : c ∈ trim s) : c ∈ s := by
  obtain ⟨blanks, hs⟩ := exists_eq_trim_append s
  rw [hs]
  simp [h]

/-- Only blanks are trimmed away. -/
theorem mem_trim_of_not_isBlank {c : Char} (h : c ∈ s) (hblank : ¬ isBlank c) : c ∈ trim s := by
  obtain ⟨blanks, hblanks, hstart⟩ := exists_trimStart_eq s
  rw [← indent_append_trimStart s, hstart, List.mem_append, List.mem_append] at h
  rcases h with hc | hc | hc
  · exact absurd (List.all_eq_true.1 List.all_takeWhile c hc) hblank
  · exact hc
  · exact absurd (hblanks c hc) hblank

theorem trimStart_trim (s : List Char) : trimStart (trim s) = trim s := by
  have hhead := List.head?_dropWhile_not isBlank s
  obtain ⟨rest, hrest⟩ : trim s <+: trimStart s := List.rdropWhile_prefix isBlank _
  unfold trimStart at hrest ⊢
  cases htrim : trim s with
  | nil => rfl
  | cons c others =>
      rw [← hrest, htrim] at hhead
      simp only [List.cons_append, List.head?_cons] at hhead
      rw [List.dropWhile_cons_of_neg (by simp [hhead])]

theorem trim_trim (s : List Char) : trim (trim s) = trim s := by
  rw [trim, trimStart_trim]
  exact List.rdropWhile_idempotent isBlank (trimStart s)

theorem trim_eq_self (h : ∀ c ∈ s, ¬ isBlank c) : trim s = s := by
  have hdrop : ∀ l : List Char, (∀ c ∈ l, ¬ isBlank c) → l.dropWhile isBlank = l := by
    intro l hl
    cases l with
    | nil => rfl
    | cons c rest => exact List.dropWhile_cons_of_neg (hl c List.mem_cons_self)
  rw [trim, trimStart, hdrop s h, trimEnd, hdrop s.reverse (by simpa using h), List.reverse_reverse]

/-- Blanks behind a text are trimmed away with those at its end. -/
theorem trim_append_of_blank {blanks : List Char} (h : ∀ c ∈ blanks, isBlank c) (s : List Char) :
    trim (s ++ blanks) = trim s := by
  have hnone : ∀ l : List Char, (∀ c ∈ l, isBlank c) → l.dropWhile isBlank = [] := fun l hl =>
    List.dropWhile_eq_nil_iff.2 hl
  have hend : ∀ t : List Char, trimEnd (t ++ blanks) = trimEnd t := by
    intro t
    rw [trimEnd, List.reverse_append, List.dropWhile_append,
      hnone blanks.reverse (by simpa using h)]
    rfl
  rw [trim, trimStart, List.dropWhile_append, hnone blanks h]
  split
  · next hnil =>
    rw [trim, trimStart, List.isEmpty_iff.1 hnil]
  · exact hend _

/-! ### Offsets -/

/-- A part of a text, at an offset from where the text starts. -/
def Piece.Within (piece : Piece) (start : Nat) (s : List Char) : Prop :=
  ∃ before after, s = before ++ piece.text ++ after ∧ piece.start = start + byteLength before

/-- A part of a part is a part. -/
theorem Piece.Within.trans {piece line : Piece} (h : piece.Within line.start line.text)
    (h' : line.Within start s) : piece.Within start s := by
  obtain ⟨before, after, htext, hstart⟩ := h
  obtain ⟨before', after', htext', hstart'⟩ := h'
  refine ⟨before' ++ before, after ++ after', ?_, ?_⟩
  · rw [htext', htext]
    simp only [List.append_assoc]
  · rw [hstart, hstart', byteLength_append, Nat.add_assoc]

theorem within_of_mem_locate (hsep : sep.utf8Size = 1) {piece : Piece}
    (h : piece ∈ locate start texts) : piece.Within start ([sep].intercalate texts) := by
  induction texts generalizing start with
  | nil => cases h
  | cons text rest ih =>
      rcases List.mem_cons.1 h with rfl | h
      · cases rest with
        | nil => exact ⟨[], [], by simp, rfl⟩
        | cons next rest =>
            refine ⟨[], sep :: [sep].intercalate (next :: rest), ?_, rfl⟩
            rw [List.intercalate_cons_cons]
            simp
      · obtain ⟨before, after, htext, hstart⟩ := ih h
        cases rest with
        | nil => cases h
        | cons next rest =>
            refine ⟨text ++ sep :: before, after, ?_, ?_⟩
            · rw [List.intercalate_cons_cons, htext]
              simp
            · rw [hstart, byteLength_append, byteLength_cons, hsep]
              omega

theorem within_of_mem_locate_pieces (hsep : sep.utf8Size = 1) {piece : Piece}
    (h : piece ∈ locate start (pieces sep s)) : piece.Within start s := by
  have hwithin := within_of_mem_locate hsep h
  rwa [intercalate_pieces] at hwithin

theorem locate_append (start : Nat) (texts more : List (List Char)) :
    locate start texts <+: locate start (texts ++ more) := by
  induction texts generalizing start with
  | nil => exact List.nil_prefix
  | cons text rest ih => exact List.cons_prefix_cons.2 ⟨rfl, ih _⟩

theorem within_of_mem_locate_lines {line : Piece} (h : line ∈ locate start (lines s)) :
    line.Within start s := by
  obtain ⟨last, hlast⟩ := lines_prefix s
  refine within_of_mem_locate_pieces (show ('\n').utf8Size = 1 by decide) ?_
  rw [← hlast]
  exact (locate_append start (lines s) last).mem h

end PipeSheet.Text
