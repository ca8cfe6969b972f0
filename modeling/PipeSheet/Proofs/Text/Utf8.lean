import Mathlib.Tactic.SplitIfs
import PipeSheet.Text.Pieces
import PipeSheet.Text.Utf8
/-!
# PipeSheet.Proofs.Text.Utf8

**Text that was written is read back, and other bytes make a text that is not much longer.**

The first byte of a character says how many are to come, and it narrows the range of the second one
where a wider range would admit overlong forms, surrogates or code points that are too large. The
bytes of a character keep to all of these ranges, and its bits are put together again.

Where bytes are no text, one byte may become a character of three.

* `decodeFrom_utf8EncodeChar`: one character;
* `decode_encode`: the round trip;
* `byteLength_decode_le`: the length of what is read.
-/

namespace PipeSheet.Text.Utf8

/-! ### Single bytes -/

section Bytes

variable {missing low high code b : Nat} {state : State}

/-- The first of two bytes. -/
theorem begin_two (hlow : 0xC2 ≤ b) (hhigh : b ≤ 0xDF) :
    begin b = (.within 1 0x80 0xBF (b - 0xC0), []) := by
  rw [begin, if_neg (by omega), lead?, if_pos ⟨hlow, hhigh⟩]

/-- The first of three bytes. -/
theorem begin_three (hlow : 0xE0 ≤ b) (hhigh : b ≤ 0xEF) :
    begin b = (.within 2 (if b = 0xE0 then 0xA0 else 0x80) (if b = 0xED then 0x9F else 0xBF)
      (b - 0xE0), []) := by
  rw [begin, if_neg (by omega), lead?, if_neg (by omega)]
  by_cases hfirst : b = 0xE0
  · subst hfirst
    rfl
  by_cases hsurrogate : b = 0xED
  · subst hsurrogate
    rfl
  rw [if_neg hfirst, if_neg hsurrogate, if_pos (by omega), if_neg hfirst, if_neg hsurrogate]

/-- The first of four bytes. -/
theorem begin_four (hlow : 0xF0 ≤ b) (hhigh : b ≤ 0xF4) :
    begin b = (.within 3 (if b = 0xF0 then 0x90 else 0x80) (if b = 0xF4 then 0x8F else 0xBF)
      (b - 0xF0), []) := by
  rw [begin, if_neg (by omega), lead?, if_neg (by omega), if_neg (by omega), if_neg (by omega),
    if_neg (by omega)]
  by_cases hfirst : b = 0xF0
  · subst hfirst
    rfl
  by_cases hlast : b = 0xF4
  · subst hlast
    rfl
  rw [if_neg hfirst, if_pos (by omega), if_neg hfirst, if_neg hlast]

/-- A byte below 128 is a character. -/
theorem decodeFrom_ascii (h : b < 0x80) (rest : List UInt8) :
    decodeFrom .ready [] (UInt8.ofNat b :: rest) = Char.ofNat b :: decodeFrom .ready [] rest := by
  have hb : b < UInt8.size := Nat.lt_trans h (by decide)
  rw [decodeFrom_cons, step, UInt8.toNat_ofNat_of_lt' hb, begin, if_pos h]
  rfl

/-- The first byte of a longer character. -/
theorem decodeFrom_first (hb : b < 256) (h : begin b = (state, [])) (rest : List UInt8) :
    decodeFrom .ready [] (UInt8.ofNat b :: rest) = decodeFrom state [] rest := by
  rw [decodeFrom_cons, step, UInt8.toNat_ofNat_of_lt' hb, h]
  rfl

/-- A byte inside of a character, before others. -/
theorem decodeFrom_next (hlow : low ≤ b) (hhigh : b ≤ high) (hb : b < 256) (rest : List UInt8) :
    decodeFrom (.within (missing + 2) low high code) [] (UInt8.ofNat b :: rest) =
      decodeFrom (.within (missing + 1) 0x80 0xBF (code * 64 + b % 64)) [] rest := by
  rw [decodeFrom_cons, step, UInt8.toNat_ofNat_of_lt' hb, if_pos ⟨hlow, hhigh⟩]
  dsimp only
  rw [if_neg (by omega)]
  rfl

/-- The last byte of a character. -/
theorem decodeFrom_last (hlow : low ≤ b) (hhigh : b ≤ high) (hb : b < 256) (rest : List UInt8) :
    decodeFrom (.within 1 low high code) [] (UInt8.ofNat b :: rest) =
      Char.ofNat (code * 64 + b % 64) :: decodeFrom .ready [] rest := by
  rw [decodeFrom_cons, step, UInt8.toNat_ofNat_of_lt' hb, if_pos ⟨hlow, hhigh⟩]
  rfl

end Bytes

/-! ### The round trip -/

/-- A character is read from its bytes. -/
theorem decodeFrom_utf8EncodeChar (c : Char) (rest : List UInt8) :
    decodeFrom .ready [] (String.utf8EncodeChar c ++ rest) = c :: decodeFrom .ready [] rest := by
  have hvalid : c.val.toNat < 0xD800 ∨ 0xDFFF < c.val.toNat ∧ c.val.toNat < 0x110000 := c.valid
  have hchar : Char.ofNat c.val.toNat = c := c.ofNat_toNat
  rw [String.utf8EncodeChar]
  generalize c.val.toNat = v at hvalid hchar ⊢
  subst hchar
  -- One case for each length. What is left at the end of a case is that the bits make up the code
  -- point again; `hvalid` is what the range of the second byte needs.
  split_ifs with hone htwo hthree
  · exact decodeFrom_ascii (by omega) rest
  · simp only [List.cons_append, List.nil_append]
    rw [decodeFrom_first (by omega) (begin_two (by omega) (by omega)),
      decodeFrom_last (by omega) (by omega) (by omega)]
    congr 2
    omega
  · simp only [List.cons_append, List.nil_append]
    rw [decodeFrom_first (by omega) (begin_three (by omega) (by omega)),
      decodeFrom_next (by split_ifs <;> omega) (by split_ifs <;> omega) (by omega),
      decodeFrom_last (by omega) (by omega) (by omega)]
    congr 2
    omega
  · simp only [List.cons_append, List.nil_append]
    rw [decodeFrom_first (by omega) (begin_four (by omega) (by omega)),
      decodeFrom_next (by split_ifs <;> omega) (by split_ifs <;> omega) (by omega),
      decodeFrom_next (by omega) (by omega) (by omega),
      decodeFrom_last (by omega) (by omega) (by omega)]
    congr 2
    omega

/-- What was written is read back. -/
theorem decode_encode (s : List Char) : decode (encode s) = s := by
  induction s with
  | nil => rfl
  | cons c rest ih =>
      have hencode : encode (c :: rest) = String.utf8EncodeChar c ++ encode rest :=
        List.flatMap_cons
      rw [decode, hencode, decodeFrom_utf8EncodeChar]
      exact congrArg (c :: ·) ih

/-! ### Lengths -/

@[simp] theorem utf8Size_replacement : replacement.utf8Size = 3 := by decide

/-- What an unfinished character becomes takes three bytes at most. -/
def State.due : State → Nat
  | .ready => 0
  | .within .. => 3

/-- No byte adds more than three bytes to what is read and what is due. -/
theorem byteLength_begin_le (b : Nat) : byteLength (begin b).2 + (begin b).1.due ≤ 3 := by
  have hascii : ∀ b < 0x80, (Char.ofNat b).utf8Size = 1 := by decide
  unfold begin
  split
  · next h => simp [hascii b h, State.due]
  · split
    · next state hstate =>
      cases state <;> simp [State.due]
    · decide

theorem byteLength_step_le (state : State) (byte : UInt8) :
    byteLength (step state byte).2 + (step state byte).1.due ≤ state.due + 3 := by
  have hbegin := byteLength_begin_le byte.toNat
  cases state with
  | ready => simpa [step, State.due] using hbegin
  | within missing low high code =>
      rw [step]
      split
      · dsimp only
        split
        · have hsize := (Char.ofNat (code * 64 + byte.toNat % 64)).utf8Size_le_four
          rw [byteLength_cons, byteLength_nil, State.due, State.due]
          omega
        · rw [byteLength_nil, State.due, State.due]
          omega
      · dsimp only
        rw [byteLength_cons, utf8Size_replacement, State.due]
        omega

theorem byteLength_decodeFrom_le (state : State) (bytes : List UInt8) :
    byteLength (decodeFrom state [] bytes) ≤ state.due + 3 * bytes.length := by
  induction bytes generalizing state with
  | nil =>
      cases state with
      | ready => simp [decodeFrom, finish]
      | within missing low high code => simp [decodeFrom, finish, State.due]
  | cons byte rest ih =>
      have hstep := byteLength_step_le state byte
      have hrest := ih (step state byte).1
      rw [decodeFrom_cons, byteLength_append, List.length_cons]
      omega

/-- A text is at most three times as long as the bytes that it was read from. -/
theorem byteLength_decode_le (bytes : List UInt8) :
    byteLength (decode bytes) ≤ 3 * bytes.length := by
  have hle := byteLength_decodeFrom_le .ready bytes
  rwa [State.due, Nat.zero_add] at hle

end PipeSheet.Text.Utf8
