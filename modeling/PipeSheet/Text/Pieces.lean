/-!
# PipeSheet.Text.Pieces

**Splitting a text at a separator, with the byte offset of every piece.**

A table is split twice, into lines and each line into the texts of its cells, and both splits have
to say where their pieces start: a text cell is reported by its place in the source.

* `byteLength`: the length of a text in UTF-8;
* `pieces`: the texts between the occurrences of a separator;
* `lines`: the pieces between line ends, where a final line end does not begin a new line;
* `locate`: each piece with its byte offset.
-/

namespace PipeSheet.Text

/-- The number of bytes of a text in UTF-8. -/
def byteLength (s : List Char) : Nat :=
  s.foldr (fun c bytes => c.utf8Size + bytes) 0

@[simp] theorem byteLength_nil : byteLength [] = 0 := rfl

@[simp] theorem byteLength_cons (c : Char) (s : List Char) :
    byteLength (c :: s) = c.utf8Size + byteLength s := rfl

@[simp] theorem byteLength_append (s t : List Char) :
    byteLength (s ++ t) = byteLength s + byteLength t := by
  induction s with
  | nil => simp
  | cons c rest ih => simp [ih, Nat.add_assoc]

/-- A text has at least as many bytes as characters. -/
theorem length_le_byteLength (s : List Char) : s.length ≤ byteLength s := by
  induction s with
  | nil => exact Nat.le_refl 0
  | cons c rest ih =>
    have := c.utf8Size_pos
    simp only [List.length_cons, byteLength_cons]
    omega

/-! ### Pieces -/

/-- The pieces of a text whose first piece already holds the characters `before`, last one
first. -/
def piecesFrom (sep : Char) (before : List Char) : List Char → List (List Char)
  | [] => [before.reverse]
  | c :: rest =>
    if c = sep then before.reverse :: piecesFrom sep [] rest
    else piecesFrom sep (c :: before) rest

/-- The texts between the occurrences of `sep`. A text without `sep` is one piece, and so is the
empty text. -/
def pieces (sep : Char) (s : List Char) : List (List Char) :=
  piecesFrom sep [] s

@[simp] theorem pieces_nil (sep : Char) : pieces sep [] = [[]] := rfl

@[simp] theorem pieces_cons_sep (sep : Char) (s : List Char) :
    pieces sep (sep :: s) = [] :: pieces sep s := by
  simp [pieces, piecesFrom]

theorem piecesFrom_ne_nil (sep : Char) (before s : List Char) : piecesFrom sep before s ≠ [] := by
  induction s generalizing before with
  | nil => simp [piecesFrom]
  | cons c rest ih =>
    unfold piecesFrom
    split
    · simp
    · exact ih _

theorem pieces_ne_nil (sep : Char) (s : List Char) : pieces sep s ≠ [] :=
  piecesFrom_ne_nil sep [] s

/-- The characters already read go in front of the first piece. -/
theorem piecesFrom_eq (sep : Char) (before s : List Char) :
    piecesFrom sep before s =
      (before.reverse ++ (pieces sep s).headD []) :: (pieces sep s).tail := by
  induction s generalizing before with
  | nil => simp [piecesFrom]
  | cons c rest ih =>
    by_cases h : c = sep
    · subst h
      simp [piecesFrom, pieces]
    · rw [pieces, piecesFrom, piecesFrom, if_neg h, if_neg h, ih (c :: before), ih [c]]
      simp

/-- A character other than the separator belongs to the first piece. -/
theorem pieces_cons_of_ne {sep c : Char} (h : c ≠ sep) (s : List Char) :
    pieces sep (c :: s) = (c :: (pieces sep s).headD []) :: (pieces sep s).tail := by
  rw [pieces, piecesFrom, if_neg h, piecesFrom_eq]
  simp

/-! ### Lines -/

/-- The lines of a text: its pieces between line ends, without the empty piece that follows a
final line end. The empty text has no lines. -/
def lines (s : List Char) : List (List Char) :=
  let all := pieces '\n' s
  if all.getLast? = some [] then all.dropLast else all

@[simp] theorem lines_nil : lines [] = [] := rfl

/-! ### Offsets -/

/-- A piece of a source and the byte offset at which it starts. -/
structure Piece where
  start : Nat
  text : List Char
  deriving DecidableEq, Repr

/-- Gives the pieces their offsets: the first one starts at `start`, and one byte of separator
stands between two pieces. -/
def locate (start : Nat) : List (List Char) → List Piece
  | [] => []
  | text :: rest => ⟨start, text⟩ :: locate (start + byteLength text + 1) rest

@[simp] theorem length_locate (start : Nat) (texts : List (List Char)) :
    (locate start texts).length = texts.length := by
  induction texts generalizing start with
  | nil => rfl
  | cons text rest ih => simp [locate, ih]

@[simp] theorem map_text_locate (start : Nat) (texts : List (List Char)) :
    (locate start texts).map Piece.text = texts := by
  induction texts generalizing start with
  | nil => rfl
  | cons text rest ih => simp [locate, ih]

end PipeSheet.Text
