import PipeSheet.Text.Pieces
/-!
# PipeSheet.Text.Span

**A span is a byte range of a text, kept in two 32-bit words.**

Offsets beyond 32 bits are truncated, so a span is faithful for texts of less than 4 GiB; nothing
else about a text depends on its length.

* `Span.ofRange`: the span of two offsets;
* `Span.slice?`: the text under a span, if the span lies inside the text, in order, and begins and
  ends between two characters.
-/

namespace PipeSheet.Text

/-- The text after its first `n` bytes, if a character ends there. -/
def dropBytes? : Nat → List Char → Option (List Char)
  | 0, s => some s
  | _ + 1, [] => none
  | n + 1, c :: rest =>
    if c.utf8Size ≤ n + 1 then dropBytes? (n + 1 - c.utf8Size) rest else none

/-- The first `n` bytes of a text, if a character ends there. -/
def takeBytes? : Nat → List Char → Option (List Char)
  | 0, _ => some []
  | _ + 1, [] => none
  | n + 1, c :: rest =>
    if c.utf8Size ≤ n + 1 then (takeBytes? (n + 1 - c.utf8Size) rest).map (c :: ·) else none

/-- Bytes up to the end of a first part are dropped with that part. -/
@[simp] theorem dropBytes?_append (s t : List Char) :
    dropBytes? (byteLength s) (s ++ t) = some t := by
  induction s with
  | nil => simp [dropBytes?]
  | cons c rest ih =>
    obtain ⟨k, hk⟩ : ∃ k, byteLength (c :: rest) = k + 1 :=
      ⟨byteLength (c :: rest) - 1, by have := c.utf8Size_pos; simp; omega⟩
    have hle : c.utf8Size ≤ k + 1 := by rw [← hk]; simp
    have hsub : k + 1 - c.utf8Size = byteLength rest := by rw [← hk]; simp
    rw [hk, List.cons_append, dropBytes?, if_pos hle, hsub, ih]

/-- Bytes up to the end of a first part are that part. -/
@[simp] theorem takeBytes?_append (s t : List Char) :
    takeBytes? (byteLength s) (s ++ t) = some s := by
  induction s with
  | nil => simp [takeBytes?]
  | cons c rest ih =>
    obtain ⟨k, hk⟩ : ∃ k, byteLength (c :: rest) = k + 1 :=
      ⟨byteLength (c :: rest) - 1, by have := c.utf8Size_pos; simp; omega⟩
    have hle : c.utf8Size ≤ k + 1 := by rw [← hk]; simp
    have hsub : k + 1 - c.utf8Size = byteLength rest := by rw [← hk]; simp
    rw [hk, List.cons_append, takeBytes?, if_pos hle, hsub, ih]
    rfl

end PipeSheet.Text

namespace PipeSheet

open Text (byteLength dropBytes? takeBytes?)

/-- A half-open range of byte offsets. -/
structure Span where
  start : UInt32
  stop : UInt32
  deriving DecidableEq, Repr

namespace Span

/-- The span from one offset to another; each keeps its low 32 bits. -/
def ofRange (start stop : Nat) : Span :=
  ⟨UInt32.ofNat start, UInt32.ofNat stop⟩

/-- The text under a span. -/
def slice? (span : Span) (s : List Char) : Option (List Char) :=
  if span.start ≤ span.stop then
    (dropBytes? span.start.toNat s).bind (takeBytes? (span.stop.toNat - span.start.toNat))
  else
    none

/-- A span is written as its two offsets. -/
def label (span : Span) : String :=
  toString span.start.toNat ++ ".." ++ toString span.stop.toNat

/-- The span of the middle part of a text, sliced out of the text, is that part. -/
theorem slice?_ofRange {before middle after : List Char}
    (h : byteLength (before ++ middle) < UInt32.size) :
    (ofRange (byteLength before) (byteLength before + byteLength middle)).slice?
      (before ++ middle ++ after) = some middle := by
  rw [Text.byteLength_append] at h
  have hstart : (UInt32.ofNat (byteLength before)).toNat = byteLength before :=
    UInt32.toNat_ofNat_of_lt' (by omega)
  have hstop : (UInt32.ofNat (byteLength before + byteLength middle)).toNat =
      byteLength before + byteLength middle :=
    UInt32.toNat_ofNat_of_lt' h
  have hle : UInt32.ofNat (byteLength before) ≤
      UInt32.ofNat (byteLength before + byteLength middle) := by
    rw [UInt32.le_iff_toNat_le, hstart, hstop]
    omega
  rw [slice?, ofRange, if_pos hle, hstart, hstop, List.append_assoc, Text.dropBytes?_append]
  simp

end Span

end PipeSheet
