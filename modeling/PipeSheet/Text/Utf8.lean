/-!
# PipeSheet.Text.Utf8

**Reading bytes as text never fails: what is not UTF-8 becomes U+FFFD.**

A file is bytes and a table is text. The reader is a machine that takes one byte at a time. Between
characters it is `ready`; inside one it knows how many bytes are missing and which range the next
byte has to lie in, so overlong forms, surrogates and code points beyond U+10FFFF are refused at
the byte that makes them so. A byte outside that range ends the broken character, which becomes one
U+FFFD, and begins the next one: each maximal ill-formed subsequence is replaced once, and a byte
below 128 is never swallowed by what stands before it.

* `Utf8.step`: one byte;
* `Utf8.decode`: the text of a byte list;
* `Utf8.encode`: the bytes of a text.
-/

namespace PipeSheet.Text.Utf8

/-- The character that stands for bytes that are no text. -/
def replacement : Char := Char.ofNat 0xFFFD

/-- Where the reader is. -/
inductive State where
  /-- Between two characters. -/
  | ready
  /-- Inside a character with the bits `code` so far: `missing` bytes are to come, the next one
  between `low` and `high`. -/
  | within (missing low high code : Nat)
  deriving DecidableEq, Repr

/-- The state after the first byte of a character of several bytes. No other byte of 128 or more
begins a character. -/
def lead? (byte : Nat) : Option State :=
  if 0xC2 ≤ byte ∧ byte ≤ 0xDF then some (.within 1 0x80 0xBF (byte - 0xC0))
  else if byte = 0xE0 then some (.within 2 0xA0 0xBF 0x0)
  else if byte = 0xED then some (.within 2 0x80 0x9F 0xD)
  else if 0xE1 ≤ byte ∧ byte ≤ 0xEF then some (.within 2 0x80 0xBF (byte - 0xE0))
  else if byte = 0xF0 then some (.within 3 0x90 0xBF 0x0)
  else if 0xF1 ≤ byte ∧ byte ≤ 0xF3 then some (.within 3 0x80 0xBF (byte - 0xF0))
  else if byte = 0xF4 then some (.within 3 0x80 0x8F 0x4)
  else none

/-- Takes a byte between two characters: the new state and the characters completed. -/
def begin (byte : Nat) : State × List Char :=
  if byte < 0x80 then (.ready, [Char.ofNat byte])
  else
    match lead? byte with
    | some state => (state, [])
    | none => (.ready, [replacement])

/-- Takes one byte: the new state and the characters completed. -/
def step (state : State) (byte : UInt8) : State × List Char :=
  match state with
  | .ready => begin byte.toNat
  | .within missing low high code =>
    if low ≤ byte.toNat ∧ byte.toNat ≤ high then
      let code := code * 64 + byte.toNat % 64
      if missing ≤ 1 then (.ready, [Char.ofNat code])
      else (.within (missing - 1) 0x80 0xBF code, [])
    else
      let (state, completed) := begin byte.toNat
      (state, replacement :: completed)

/-- At the end of the bytes an unfinished character is broken. -/
def finish : State → List Char
  | .ready => []
  | .within .. => [replacement]

/-- The text of the bytes read from `state` on, after the characters `before`, last one first. -/
def decodeFrom (state : State) (before : List Char) : List UInt8 → List Char
  | [] => before.reverse ++ finish state
  | byte :: rest =>
    let (state, completed) := step state byte
    decodeFrom state (completed.reverse ++ before) rest

/-- The text of a byte list, with U+FFFD for each maximal ill-formed subsequence. -/
def decode (bytes : List UInt8) : List Char :=
  decodeFrom .ready [] bytes

/-- The bytes of a text. -/
def encode (s : List Char) : List UInt8 :=
  s.flatMap String.utf8EncodeChar

@[simp] theorem decode_nil : decode [] = [] := rfl

/-- The characters already read stand in front of the others. -/
theorem decodeFrom_eq (state : State) (before : List Char) (bytes : List UInt8) :
    decodeFrom state before bytes = before.reverse ++ decodeFrom state [] bytes := by
  induction bytes generalizing state before with
  | nil => simp [decodeFrom]
  | cons byte rest ih =>
    simp only [decodeFrom]
    rw [ih, ih _ (_ ++ [])]
    simp

/-- Reading goes byte by byte. -/
theorem decodeFrom_cons (state : State) (byte : UInt8) (rest : List UInt8) :
    decodeFrom state [] (byte :: rest) =
      (step state byte).2 ++ decodeFrom (step state byte).1 [] rest := by
  show decodeFrom (step state byte).1 ((step state byte).2.reverse ++ []) rest = _
  rw [decodeFrom_eq]
  simp

end PipeSheet.Text.Utf8
