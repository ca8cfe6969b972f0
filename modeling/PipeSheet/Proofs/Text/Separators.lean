import PipeSheet.Proofs.Text.Broken
import PipeSheet.Proofs.Text.Lines
/-!
# PipeSheet.Proofs.Text.Separators

**Broken bytes do not reach over a byte below 128.**

No state asks for such a byte, so wherever it stands, it ends what was begun and is a character
itself. And no such character comes from other bytes. Hence it does not matter whether bytes are
read first and the text is split, or the bytes are split and the pieces are read.

* `decode_append_cons`: reading at a byte below 128;
* `splitOn_decode`: splitting a text and splitting its bytes;
* `rawLines`, `lines_decode`: the lines of a text as lines of bytes.
-/

namespace PipeSheet.Text.Utf8

variable {state : State} {b : UInt8} {bytes : List UInt8}

/-! ### Reading -/

/-- A state that asks for no byte below 128. -/
def State.Guarded : State → Prop
  | .ready => True
  | .within _ low _ _ => 0x80 ≤ low

theorem guarded_begin (b : UInt8) : (begin b.toNat).1.Guarded := by
  generalize hbegin : begin b.toNat = next
  cases hbegin ▸ begins b with
  | char _ => trivial
  | inside h => exact h.low_le.1
  | broken _ => trivial

theorem guarded_step (state : State) (b : UInt8) : (step state b).1.Guarded := by
  cases state with
  | ready => exact guarded_begin b
  | within missing low high code =>
      rw [step]
      split
      · dsimp only
        split
        · trivial
        · exact Nat.le_refl _
      · exact guarded_begin b

/-- A byte below 128 ends what was begun, as the end of the bytes does. -/
theorem step_of_lt (hstate : state.Guarded) (hb : b.toNat < 0x80) :
    step state b = (.ready, finish state ++ [Char.ofNat b.toNat]) := by
  have hbegin : begin b.toNat = (.ready, [Char.ofNat b.toNat]) := by
    rw [begin, if_pos hb]
  cases state with
  | ready => exact hbegin
  | within missing low high code =>
      have hlow : 0x80 ≤ low := hstate
      rw [step, if_neg (by omega), hbegin]
      rfl

theorem decodeFrom_append_cons (hstate : state.Guarded) (hb : b.toNat < 0x80)
    (front back : List UInt8) :
    decodeFrom state [] (front ++ b :: back) =
      decodeFrom state [] front ++ Char.ofNat b.toNat :: decode back := by
  induction front generalizing state with
  | nil =>
      rw [List.nil_append, decodeFrom_cons, step_of_lt hstate hb]
      simp [decodeFrom, decode]
  | cons first rest ih =>
      rw [List.cons_append, decodeFrom_cons, decodeFrom_cons, ih (guarded_step state first),
        List.append_assoc]

theorem decode_append_cons (hb : b.toNat < 0x80) (front back : List UInt8) :
    decode (front ++ b :: back) = decode front ++ Char.ofNat b.toNat :: decode back :=
  decodeFrom_append_cons (by trivial) hb front back

/-- A character below 128 is read from its byte only. -/
theorem mem_of_mem_decode (hb : b.toNat < 0x80) (h : Char.ofNat b.toNat ∈ decode bytes) :
    b ∈ bytes := by
  have hval := @toNat_ofNat_of_valid b.toNat (by omega)
  rcases (decodes_decode bytes).infix_of_mem h with hbroken | hinfix
  · have hcode : b.toNat = 0xFFFD := by rw [← hval, hbroken]; rfl
    omega
  · have hone : String.utf8EncodeChar (Char.ofNat b.toNat) = [b] := by
      rw [String.utf8EncodeChar, hval, if_pos (by omega)]
      simp
    exact hinfix.subset (by rw [hone]; exact List.mem_singleton_self b)

theorem decode_eq_nil_iff : decode bytes = [] ↔ bytes = [] := by
  constructor
  · intro h
    generalize htext : decode bytes = text at h
    cases decodes_iff.2 htext.symm with
    | nil => rfl
    | char c _ => cases h
    | broken _ _ => cases h
  · rintro rfl
    rfl

/-! ### Splitting -/

/-- Splitting the text of some bytes gives the texts of the pieces of the bytes. -/
theorem splitOn_decode (hb : b.toNat < 0x80) (bytes : List UInt8) :
    (decode bytes).splitOn (Char.ofNat b.toNat) = (bytes.splitOn b).map decode := by
  induction hlength : bytes.length using Nat.strong_induction_on generalizing bytes with
  | _ n ih =>
      by_cases h : b ∈ bytes
      · obtain ⟨front, back, rfl⟩ := List.append_of_mem h
        rw [List.length_append, List.length_cons] at hlength
        rw [decode_append_cons hb, List.splitOn_append_cons_self, List.splitOn_append_cons_self,
          ih front.length (by omega) front rfl, ih back.length (by omega) back rfl, List.map_append]
      · rw [List.splitOn_eq_singleton (mt (mem_of_mem_decode hb) h), List.splitOn_eq_singleton h]
        rfl

/-- The lines of some bytes: what stands between the bytes of line ends, without the empty piece
that follows the last of them. -/
def rawLines (bytes : List UInt8) : List (List UInt8) :=
  let all := bytes.splitOn 0x0A
  if all.getLast? = some [] then all.dropLast else all

/-- The lines of a text are the texts of the lines of its bytes. -/
theorem lines_decode (bytes : List UInt8) : lines (decode bytes) = (rawLines bytes).map decode := by
  have hpieces : pieces '\n' (decode bytes) = (bytes.splitOn 0x0A).map decode :=
    (pieces_eq_splitOn '\n' _).trans (splitOn_decode (b := 0x0A) (by decide) bytes)
  have hlast : (pieces '\n' (decode bytes)).getLast? = some [] ↔
      (bytes.splitOn 0x0A).getLast? = some [] := by
    rw [hpieces, List.getLast?_map, Option.map_eq_some_iff]
    simp [decode_eq_nil_iff]
  simp only [lines, rawLines]
  split
  · next h => rw [if_pos (hlast.1 h), hpieces, List.map_dropLast]
  · next h => rw [if_neg (mt hlast.2 h), hpieces]

end PipeSheet.Text.Utf8
