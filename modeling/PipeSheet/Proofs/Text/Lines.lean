import PipeSheet.Proofs.Text.Pieces
/-!
# PipeSheet.Proofs.Text.Lines

**How many lines and pieces a text has, and at which byte each of them starts.**

The separators in a text are one fewer than its pieces, and the last line counts unless it is empty.
In front of a piece stand the pieces before it, each with its separator, so the offset of a piece is
the number of their bytes, whatever characters they consist of.

* `length_pieces`, `length_lines`: the numbers of pieces and lines;
* `lines_append`: the lines of a text behind a line end come after those in front of it;
* `ended`: texts, each with a separator behind it;
* `getElem?_locate`: the offset of a piece.
-/

namespace PipeSheet.Text

variable {sep : Char} {s : List Char}

/-- Some texts, each with a separator behind it. -/
def ended (sep : Char) (texts : List (List Char)) : List Char :=
  texts.flatMap fun text => text ++ [sep]

@[simp] theorem ended_nil (sep : Char) : ended sep [] = [] := rfl

@[simp] theorem ended_cons (sep : Char) (text : List Char) (texts : List (List Char)) :
    ended sep (text :: texts) = text ++ sep :: ended sep texts := by
  simp [ended]

/-- In texts that are put together, those in front of a text end with a separator. -/
theorem intercalate_append_cons (front : List (List Char)) (text : List Char)
    (back : List (List Char)) :
    [sep].intercalate (front ++ text :: back) =
      ended sep front ++ [sep].intercalate (text :: back) := by
  induction front with
  | nil => rfl
  | cons first rest ih =>
      rw [List.cons_append, List.intercalate_cons_of_ne_nil (by simp), ih, ended_cons]
      simp

/-! ### How many -/

theorem length_pieces (sep : Char) (s : List Char) : (pieces sep s).length = s.count sep + 1 := by
  induction s with
  | nil => rfl
  | cons c rest ih =>
      by_cases hc : c = sep
      · subst hc
        simp [ih]
      · obtain ⟨first, others, hpieces⟩ := List.exists_cons_of_ne_nil (pieces_ne_nil sep rest)
        rw [pieces_cons_of_ne hc, List.count_cons_of_ne hc, ← ih, hpieces]
        simp

/-- The last piece is empty in the empty text and in those that end with a separator. -/
theorem getLast?_pieces_eq_nil_iff :
    (pieces sep s).getLast? = some [] ↔ s = [] ∨ s.getLast? = some sep := by
  obtain ⟨front, last, hpieces⟩ := List.eq_nil_or_concat (pieces sep s) |>.resolve_left
    (pieces_ne_nil sep s)
  rw [List.concat_eq_append] at hpieces
  have hs : s = ended sep front ++ last := by
    rw [← intercalate_pieces sep s, hpieces, intercalate_append_cons, List.intercalate_singleton]
  have hlast : sep ∉ last := not_mem_of_mem_pieces (hpieces ▸ List.mem_concat_self)
  rw [hpieces, List.getLast?_concat, Option.some_inj]
  constructor
  · intro hnil
    rw [hs, hnil, List.append_nil]
    rcases List.eq_nil_or_concat front with rfl | ⟨others, text, rfl⟩
    · exact .inl rfl
    · right
      simp [ended]
  · intro h
    by_contra hne
    rcases h with h | h
    · exact hne (List.append_eq_nil_iff.1 (hs ▸ h)).2
    · rw [hs, List.getLast?_append_of_ne_nil _ hne] at h
      exact hlast (List.mem_of_getLast? h)

/-- Every line ends with a line end, or it is the last one and not empty. -/
theorem length_lines (s : List Char) :
    (lines s).length = s.count '\n' + if s ≠ [] ∧ s.getLast? ≠ some '\n' then 1 else 0 := by
  have hlast : (pieces '\n' s).getLast? = some [] ↔ s = [] ∨ s.getLast? = some '\n' :=
    getLast?_pieces_eq_nil_iff
  unfold lines
  dsimp only
  by_cases h : s = [] ∨ s.getLast? = some '\n'
  · rw [if_pos (hlast.2 h), if_neg (by tauto), List.length_dropLast, length_pieces]
    rfl
  · rw [if_neg (mt hlast.1 h), if_pos (not_or.1 h), length_pieces]

theorem lines_eq_take (s : List Char) : lines s = (s.splitOn '\n').take (lines s).length := by
  have hprefix := lines_prefix s
  rw [← pieces_eq_splitOn]
  exact List.prefix_iff_eq_take.1 hprefix

/-! ### Texts behind a separator -/

theorem pieces_append_cons (sep : Char) (s t : List Char) :
    pieces sep (s ++ sep :: t) = pieces sep s ++ pieces sep t := by
  rw [pieces_eq_splitOn, pieces_eq_splitOn, pieces_eq_splitOn, List.splitOn_append_cons_self]

theorem lines_append (h : s = [] ∨ s.getLast? = some '\n') (t : List Char) :
    lines (s ++ t) = lines s ++ lines t := by
  rcases h with rfl | h
  · rfl
  obtain ⟨front, rfl⟩ := List.getLast?_eq_some_iff.1 h
  have hfront : lines (front ++ ['\n']) = pieces '\n' front := by
    rw [lines, pieces_append_cons]
    simp
  have hall : pieces '\n' (front ++ ['\n'] ++ t) = pieces '\n' front ++ pieces '\n' t := by
    rw [List.append_assoc]
    exact pieces_append_cons '\n' front t
  have hne := pieces_ne_nil '\n' t
  rw [hfront, lines, lines, hall, List.getLast?_append_of_ne_nil _ hne,
    List.dropLast_append_of_ne_nil hne]
  split
  · rfl
  · rfl

/-! ### Where -/

theorem getElem?_locate (hsep : sep.utf8Size = 1) (start : Nat) (texts : List (List Char))
    (i : Nat) :
    (locate start texts)[i]? =
      texts[i]?.map fun text => ⟨start + byteLength (ended sep (texts.take i)), text⟩ := by
  induction texts generalizing start i with
  | nil => rfl
  | cons text rest ih =>
      cases i with
      | zero => rfl
      | succ i =>
          rw [locate, List.getElem?_cons_succ, ih, List.getElem?_cons_succ, List.take_succ_cons,
            ended_cons, byteLength_append, byteLength_cons, hsep]
          congr
          funext other
          congr 1
          omega

end PipeSheet.Text
