import Mathlib.Data.List.Basic
import Mathlib.Tactic.Tauto
import PipeSheet.Proofs.Text.Utf8
/-!
# PipeSheet.Proofs.Text.Broken

**Bytes that are no text are replaced as the Unicode standard recommends.**

Where no character begins, the bytes that could still have become one are taken together: the
longest beginning of the bytes of a character that stands there, or a single byte if there is none.
They become one U+FFFD, and reading goes on behind them (`Decodes`).

The machine knows more than it says. In the middle of a character, the bytes that complete it are
exactly those that the state asks for (`Inside`). This holds behind a first byte and is kept by
every byte that the state asks for, so a byte that it does not ask for ends a stretch that cannot be
longer.

* `Together`, `Broken`, `Decodes`: what the standard recommends;
* `Inside`: what the machine knows;
* `decodes_iff`: the text of some bytes is what the standard recommends, and there is no other;
* `IsText`: bytes that are those of a text, and so need no replacement.
-/

namespace PipeSheet.Text.Utf8

open String (utf8EncodeChar)

/-! ### Replacement -/

/-- Bytes that are replaced together: a single one, or a beginning of the bytes of a character. -/
def Together (bytes : List UInt8) : Prop :=
  bytes.length = 1 ∨ bytes ≠ [] ∧ ∃ c, bytes <+: utf8EncodeChar c

/-- In front of `rest`, the bytes `bad` are replaced by one character: no character begins there,
and no more bytes belong together. -/
structure Broken (bad rest : List UInt8) : Prop where
  no_char : ∀ c, ¬ utf8EncodeChar c <+: bad ++ rest
  together : Together bad
  longest : ∀ other, other <+: bad ++ rest → Together other → other.length ≤ bad.length

/-- The text of some bytes, with a replacement character for each stretch that is broken. -/
inductive Decodes : List UInt8 → List Char → Prop
  | nil : Decodes [] []
  | char {rest : List UInt8} {text : List Char} (c : Char) : Decodes rest text →
      Decodes (utf8EncodeChar c ++ rest) (c :: text)
  | broken {bad rest : List UInt8} {text : List Char} : Broken bad rest → Decodes rest text →
      Decodes (bad ++ rest) (replacement :: text)

variable {bytes seen bad other rest rest' : List UInt8} {text text' : List Char} {b : UInt8}
  {c d : Char} {missing low high code v : Nat}

/-! ### The bytes of a character -/

theorem toNat_ofNat_of_valid (h : v < 0xD800 ∨ 0xDFFF < v ∧ v < 0x110000) :
    (Char.ofNat v).val.toNat = v := by
  have hvalid : v.isValidChar := h
  rw [Char.ofNat, dif_pos hvalid]
  rfl

/-- No character begins with the bytes of another one. -/
theorem eq_of_isPrefix (h : utf8EncodeChar c <+: utf8EncodeChar d) : c = d := by
  obtain ⟨more, hmore⟩ := h
  have hd := decodeFrom_utf8EncodeChar d []
  rw [List.append_nil, ← hmore, decodeFrom_utf8EncodeChar] at hd
  exact (List.cons.inj hd).1

/-- The bytes that a state asks for: as many as are missing, the first of them in its range and the
others in the range that all later bytes have. -/
def Fills (missing low high : Nat) (bytes : List UInt8) : Prop :=
  bytes.length = missing ∧ (∀ b ∈ bytes.head?, low ≤ b.toNat ∧ b.toNat ≤ high) ∧
    ∀ b ∈ bytes.tail, 0x80 ≤ b.toNat ∧ b.toNat ≤ 0xBF

theorem fills_cons : Fills missing low high (b :: rest) ↔
    (rest.length + 1 = missing ∧ ∀ t ∈ rest, 0x80 ≤ t.toNat ∧ t.toNat ≤ 0xBF) ∧
      low ≤ b.toNat ∧ b.toNat ≤ high := by
  simp only [Fills, List.length_cons, List.head?_cons, Option.mem_some_iff, forall_eq',
    List.tail_cons]
  tauto

/-- The first byte of a character says how many are to come and where the next one lies. -/
inductive Spells (b : UInt8) (more : List UInt8) : Prop
  | one : b.toNat < 0x80 → more = [] → Spells b more
  | two : 0xC2 ≤ b.toNat → b.toNat ≤ 0xDF → Fills 1 0x80 0xBF more → Spells b more
  | three : 0xE0 ≤ b.toNat → b.toNat ≤ 0xEF →
      Fills 2 (if b.toNat = 0xE0 then 0xA0 else 0x80) (if b.toNat = 0xED then 0x9F else 0xBF) more →
      Spells b more
  | four : 0xF0 ≤ b.toNat → b.toNat ≤ 0xF4 →
      Fills 3 (if b.toNat = 0xF0 then 0x90 else 0x80) (if b.toNat = 0xF4 then 0x8F else 0xBF) more →
      Spells b more

theorem spells_of_utf8EncodeChar (h : utf8EncodeChar c = b :: bytes) : Spells b bytes := by
  have hvalid : c.val.toNat < 0xD800 ∨ 0xDFFF < c.val.toNat ∧ c.val.toNat < 0x110000 := c.valid
  rw [utf8EncodeChar] at h
  generalize c.val.toNat = v at hvalid h
  -- One case for each length. In the third one `hvalid` says that there are no surrogates.
  split_ifs at h with hone htwo hthree
  all_goals
    simp only [List.cons.injEq, UInt8.ofNat_eq_iff_mod_eq_toNat] at h
    obtain ⟨hb, rfl⟩ := h
  · exact .one (by omega) rfl
  · refine .two (by omega) (by omega) (fills_cons.2 ⟨⟨rfl, by simp⟩, ?_⟩)
    simp only [UInt8.toNat_ofNat']
    omega
  · refine .three (by omega) (by omega) (fills_cons.2 ⟨⟨rfl, ?_⟩, ?_⟩)
    · simp only [List.mem_singleton, forall_eq, UInt8.toNat_ofNat']
      omega
    · simp only [UInt8.toNat_ofNat']
      split_ifs <;> omega
  · refine .four (by omega) (by omega) (fills_cons.2 ⟨⟨rfl, ?_⟩, ?_⟩)
    · simp only [List.forall_mem_cons, List.mem_singleton, forall_eq, UInt8.toNat_ofNat']
      omega
    · simp only [UInt8.toNat_ofNat']
      split_ifs <;> omega

/-! ### The middle of a character -/

/-- The code point that some more bytes make of the bits so far. -/
def withBits (code : Nat) (bytes : List UInt8) : Nat :=
  bytes.foldl (fun n b => n * 64 + b.toNat % 64) code

/-- Behind the bytes `seen` of a character, the others are those that the state asks for. -/
structure Inside (seen : List UInt8) (missing low high code : Nat) : Prop where
  ne_nil : seen ≠ []
  missing_pos : 1 ≤ missing
  low_le : 0x80 ≤ low ∧ low ≤ high
  high_le : high ≤ 0xBF
  isChar : ∀ bytes, Fills missing low high bytes →
    utf8EncodeChar (Char.ofNat (withBits code bytes)) = seen ++ bytes
  fills : ∀ c bytes, utf8EncodeChar c = seen ++ bytes → Fills missing low high bytes

/-- Behind the first of two bytes. -/
theorem inside_two (hlow : 0xC2 ≤ b.toNat) (hhigh : b.toNat ≤ 0xDF) :
    Inside [b] 1 0x80 0xBF (b.toNat - 0xC0) := by
  refine ⟨by simp, by omega, by omega, by omega, fun bytes h => ?_, fun c bytes h => ?_⟩
  · obtain ⟨b₁, rfl⟩ := List.length_eq_one_iff.1 h.1
    have h₁ := (fills_cons.1 h).2
    simp only [withBits, List.foldl]
    generalize hv : (b.toNat - 0xC0) * 64 + b₁.toNat % 64 = v
    rw [utf8EncodeChar, toNat_ofNat_of_valid (by omega), if_neg (by omega), if_pos (by omega)]
    simp only [List.cons_append, List.nil_append, List.cons.injEq, and_true,
      UInt8.ofNat_eq_iff_mod_eq_toNat]
    omega
  · cases spells_of_utf8EncodeChar h
    · omega
    · assumption
    · omega
    · omega

/-- Behind the first of three bytes. -/
theorem inside_three (hlow : 0xE0 ≤ b.toNat) (hhigh : b.toNat ≤ 0xEF) :
    Inside [b] 2 (if b.toNat = 0xE0 then 0xA0 else 0x80) (if b.toNat = 0xED then 0x9F else 0xBF)
      (b.toNat - 0xE0) := by
  refine ⟨by simp, by omega, by split_ifs <;> omega, by split_ifs <;> omega, fun bytes h => ?_,
    fun c bytes h => ?_⟩
  · obtain ⟨b₁, b₂, rfl⟩ := List.length_eq_two.1 h.1
    obtain ⟨⟨_, h₂⟩, h₁⟩ := fills_cons.1 h
    have h₂ := h₂ b₂ (by simp)
    simp only [withBits, List.foldl]
    generalize hv : ((b.toNat - 0xE0) * 64 + b₁.toNat % 64) * 64 + b₂.toNat % 64 = v
    -- The range of the second byte leaves out what is written shorter, and surrogates.
    have hvalid : 0x800 ≤ v ∧ v < 0x10000 ∧ (v < 0xD800 ∨ 0xDFFF < v) := by
      split_ifs at h₁ <;> omega
    have h₁ : 0x80 ≤ b₁.toNat ∧ b₁.toNat ≤ 0xBF := by
      split_ifs at h₁ <;> omega
    rw [utf8EncodeChar, toNat_ofNat_of_valid (by omega), if_neg (by omega), if_neg (by omega),
      if_pos (by omega)]
    simp only [List.cons_append, List.nil_append, List.cons.injEq, and_true,
      UInt8.ofNat_eq_iff_mod_eq_toNat]
    omega
  · cases spells_of_utf8EncodeChar h
    · omega
    · omega
    · assumption
    · omega

/-- Behind the first of four bytes. -/
theorem inside_four (hlow : 0xF0 ≤ b.toNat) (hhigh : b.toNat ≤ 0xF4) :
    Inside [b] 3 (if b.toNat = 0xF0 then 0x90 else 0x80) (if b.toNat = 0xF4 then 0x8F else 0xBF)
      (b.toNat - 0xF0) := by
  refine ⟨by simp, by omega, by split_ifs <;> omega, by split_ifs <;> omega, fun bytes h => ?_,
    fun c bytes h => ?_⟩
  · obtain ⟨b₁, b₂, b₃, rfl⟩ := List.length_eq_three.1 h.1
    obtain ⟨⟨_, hlater⟩, h₁⟩ := fills_cons.1 h
    have h₂ := hlater b₂ (by simp)
    have h₃ := hlater b₃ (by simp)
    simp only [withBits, List.foldl]
    generalize hv :
      (((b.toNat - 0xF0) * 64 + b₁.toNat % 64) * 64 + b₂.toNat % 64) * 64 + b₃.toNat % 64 = v
    have hvalid : 0x10000 ≤ v ∧ v < 0x110000 := by
      split_ifs at h₁ <;> omega
    have h₁ : 0x80 ≤ b₁.toNat ∧ b₁.toNat ≤ 0xBF := by
      split_ifs at h₁ <;> omega
    rw [utf8EncodeChar, toNat_ofNat_of_valid (by omega), if_neg (by omega), if_neg (by omega),
      if_neg (by omega)]
    simp only [List.cons_append, List.nil_append, List.cons.injEq, and_true,
      UInt8.ofNat_eq_iff_mod_eq_toNat]
    omega
  · cases spells_of_utf8EncodeChar h
    · omega
    · omega
    · omega
    · assumption

namespace Inside

variable (h : Inside seen missing low high code)
include h

/-- The middle of a character is the beginning of one. -/
theorem exists_append :
    ∃ c bytes, utf8EncodeChar c = seen ++ bytes ∧ Fills missing low high bytes := by
  have hlow := h.low_le
  have hhigh := h.high_le
  have hpos := h.missing_pos
  have hfills : Fills missing low high (UInt8.ofNat low :: List.replicate (missing - 1) 0x80) := by
    refine fills_cons.2 ⟨⟨by rw [List.length_replicate]; omega, fun b hb => ?_⟩, ?_⟩
    · rw [List.eq_of_mem_replicate hb]
      decide
    · rw [UInt8.toNat_ofNat']
      omega
  exact ⟨_, _, h.isChar _ hfills, hfills⟩

/-- A byte that the state asks for, before others. -/
theorem next (hmissing : 2 ≤ missing) (hlow : low ≤ b.toNat) (hhigh : b.toNat ≤ high) :
    Inside (seen ++ [b]) (missing - 1) 0x80 0xBF (code * 64 + b.toNat % 64) := by
  have hrange : ∀ bytes,
      Fills (missing - 1) 0x80 0xBF bytes ↔ Fills missing low high (b :: bytes) := by
    intro bytes
    cases bytes with
    | nil => simp only [Fills, List.length_cons, List.length_nil]; omega
    | cons t rest =>
        rw [fills_cons, fills_cons, List.forall_mem_cons, List.length_cons]
        have hlength : rest.length + 1 = missing - 1 ↔ rest.length + 1 + 1 = missing := by omega
        tauto
  refine ⟨by simp, by omega, by omega, by omega, fun bytes hfills => ?_, fun c bytes hc => ?_⟩
  · rw [List.append_assoc]
    exact h.isChar (b :: bytes) ((hrange bytes).1 hfills)
  · rw [List.append_assoc] at hc
    exact (hrange bytes).2 (h.fills c (b :: bytes) hc)

/-- A byte that the state asks for as the last one. -/
theorem last (hmissing : missing = 1) (hlow : low ≤ b.toNat) (hhigh : b.toNat ≤ high) :
    utf8EncodeChar (Char.ofNat (code * 64 + b.toNat % 64)) = seen ++ [b] :=
  h.isChar [b] (fills_cons.2 ⟨⟨hmissing.symm, by simp⟩, hlow, hhigh⟩)

/-- In front of a byte that the state does not ask for, and at the end, what was seen goes no
further. -/
theorem length_le (hrest : ∀ b ∈ rest.head?, ¬ (low ≤ b.toNat ∧ b.toNat ≤ high))
    (hc : other <+: utf8EncodeChar c) (hother : other <+: seen ++ rest) :
    other.length ≤ seen.length := by
  by_contra hlength
  obtain ⟨more, rfl⟩ : seen <+: other :=
    List.prefix_of_prefix_length_le (List.prefix_append seen rest) hother (by omega)
  obtain ⟨bytes, hbytes⟩ := hc
  rw [List.append_assoc] at hbytes
  have hmore := (List.prefix_append_right_inj seen).1 hother
  cases more with
  | nil => simp at hlength
  | cons b others =>
      obtain ⟨_, hb⟩ := fills_cons.1 (h.fills c _ hbytes.symm)
      obtain ⟨_, rfl⟩ := hmore
      exact hrest b rfl hb

/-- So it is replaced. -/
theorem broken (hrest : ∀ b ∈ rest.head?, ¬ (low ≤ b.toNat ∧ b.toNat ≤ high)) :
    Broken seen rest := by
  obtain ⟨d, bytes, hd, hfills⟩ := h.exists_append
  refine ⟨fun c hc => ?_, .inr ⟨h.ne_nil, d, bytes, hd.symm⟩, fun other hother htogether => ?_⟩
  · have hseen : utf8EncodeChar c <+: seen := List.prefix_of_prefix_length_le hc
      (List.prefix_append seen rest) (h.length_le hrest List.prefix_rfl hc)
    obtain rfl : c = d := eq_of_isPrefix (hseen.trans ⟨bytes, hd.symm⟩)
    have hlength := hseen.length_le
    have hpos := h.missing_pos
    rw [hd, List.length_append, hfills.1] at hlength
    omega
  · rcases htogether with hone | ⟨_, c, hc⟩
    · rw [hone]
      exact List.length_pos_iff.2 h.ne_nil
    · exact h.length_le hrest hc hother

end Inside

/-! ### The machine -/

/-- A byte between two characters is a character, or it begins one, or it begins none. -/
inductive Begins (b : UInt8) : State × List Char → Prop
  | char {c : Char} : utf8EncodeChar c = [b] → Begins b (.ready, [c])
  | inside {missing low high code : Nat} : Inside [b] missing low high code →
      Begins b (.within missing low high code, [])
  | broken : (∀ c more, utf8EncodeChar c ≠ b :: more) → Begins b (.ready, [replacement])

theorem begins (b : UInt8) : Begins b (begin b.toNat) := by
  rcases Nat.lt_or_ge b.toNat 0x80 with hone | hone
  · rw [begin, if_pos hone]
    refine .char ?_
    rw [utf8EncodeChar, toNat_ofNat_of_valid (by omega), if_pos (by omega)]
    simp
  by_cases htwo : 0xC2 ≤ b.toNat ∧ b.toNat ≤ 0xDF
  · rw [begin_two htwo.1 htwo.2]
    exact .inside (inside_two htwo.1 htwo.2)
  by_cases hthree : 0xE0 ≤ b.toNat ∧ b.toNat ≤ 0xEF
  · rw [begin_three hthree.1 hthree.2]
    exact .inside (inside_three hthree.1 hthree.2)
  by_cases hfour : 0xF0 ≤ b.toNat ∧ b.toNat ≤ 0xF4
  · rw [begin_four hfour.1 hfour.2]
    exact .inside (inside_four hfour.1 hfour.2)
  · have hnone : begin b.toNat = (.ready, [replacement]) := by
      rw [begin, if_neg (by omega), lead?, if_neg htwo, if_neg (by omega), if_neg (by omega),
        if_neg (by omega), if_neg (by omega), if_neg (by omega), if_neg (by omega)]
    rw [hnone]
    refine .broken fun c more hc => ?_
    cases spells_of_utf8EncodeChar hc <;> omega

/-- A byte that begins no character is replaced alone. -/
theorem broken_singleton (h : ∀ c more, utf8EncodeChar c ≠ b :: more) (rest : List UInt8) :
    Broken [b] rest := by
  have hnone : ∀ c, ∀ bytes ≠ [], bytes <+: utf8EncodeChar c → ¬ bytes <+: [b] ++ rest := by
    rintro c bytes hne ⟨more, hmore⟩ hbytes
    obtain ⟨t, others, rfl⟩ := List.exists_cons_of_ne_nil hne
    obtain rfl := (List.cons_prefix_cons.1 hbytes).1
    exact h c _ hmore.symm
  refine ⟨fun c hc => ?_, .inl rfl, fun other hother htogether => ?_⟩
  · exact hnone c _ String.utf8EncodeChar_ne_nil List.prefix_rfl hc
  · rcases htogether with hone | ⟨hne, c, hc⟩
    · exact Nat.le_of_eq hone
    · exact absurd hother (hnone c other hne hc)

/-- What was seen of a character belongs to the bytes that are read on. -/
theorem decodes_decodeFrom (bytes : List UInt8) :
    Decodes bytes (decodeFrom .ready [] bytes) ∧
      ∀ {seen missing low high code}, Inside seen missing low high code →
        Decodes (seen ++ bytes) (decodeFrom (.within missing low high code) [] bytes) := by
  induction bytes with
  | nil => exact ⟨.nil, fun h => .broken (h.broken (by simp)) .nil⟩
  | cons b rest ih =>
      obtain ⟨hready, hwithin⟩ := ih
      have hfirst : Decodes (b :: rest) (decodeFrom .ready [] (b :: rest)) := by
        rw [decodeFrom_cons, step]
        generalize hbegin : begin b.toNat = next
        cases hbegin ▸ begins b with
        | @char c hc =>
            have hread := Decodes.char c hready
            rwa [hc] at hread
        | inside h => exact hwithin h
        | broken h => exact .broken (broken_singleton h rest) hready
      refine ⟨hfirst, fun {seen missing low high code} h => ?_⟩
      by_cases hrange : low ≤ b.toNat ∧ b.toNat ≤ high
      · rw [decodeFrom_cons, step, if_pos hrange, List.append_cons]
        dsimp only
        split
        · have hpos := h.missing_pos
          rw [← h.last (by omega) hrange.1 hrange.2]
          exact .char _ hready
        · exact hwithin (h.next (by omega) hrange.1 hrange.2)
      · -- The byte is read again as one between two characters.
        have hread : decodeFrom (.within missing low high code) [] (b :: rest) =
            replacement :: decodeFrom .ready [] (b :: rest) := by
          rw [decodeFrom_cons, decodeFrom_cons]
          simp only [step, if_neg hrange]
          rfl
        rw [hread]
        exact .broken (h.broken fun t ht => by cases ht; exact hrange) hfirst

/-! ### The law -/

theorem Broken.ne_nil (h : Broken bad rest) : bad ≠ [] := by
  rcases h.together with hone | ⟨hne, _⟩
  · exact List.ne_nil_of_length_eq_add_one hone
  · exact hne

/-- Two broken stretches in front of which the same bytes stand are the same. -/
theorem Broken.unique (h : Broken bad rest) (h' : Broken other rest')
    (heq : bad ++ rest = other ++ rest') : bad = other ∧ rest = rest' := by
  have hle := h.longest other (heq ▸ List.prefix_append other rest') h'.together
  have hge := h'.longest bad (heq ▸ List.prefix_append bad rest) h.together
  exact List.append_inj heq (Nat.le_antisymm hge hle)

namespace Decodes

/-- There is one text for some bytes. -/
theorem unique (h : Decodes bytes text) (h' : Decodes bytes text') : text = text' := by
  induction h generalizing text' with
  | nil =>
      generalize hbytes : [] = bytes at h'
      cases h' with
      | nil => rfl
      | char d _ =>
          exact (String.utf8EncodeChar_ne_nil (List.append_eq_nil_iff.1 hbytes.symm).1).elim
      | broken hbad _ => exact absurd (List.append_eq_nil_iff.1 hbytes.symm).1 hbad.ne_nil
  | @char rest text c _ ih =>
      generalize hbytes : utf8EncodeChar c ++ rest = bytes at h'
      cases h' with
      | nil => exact (String.utf8EncodeChar_ne_nil (List.append_eq_nil_iff.1 hbytes).1).elim
      | @char rest' text' d hrest =>
          have hsame : c = d := by
            rcases List.prefix_or_prefix_of_prefix ⟨rest, hbytes⟩ ⟨rest', rfl⟩ with h | h
            · exact eq_of_isPrefix h
            · exact (eq_of_isPrefix h).symm
          subst hsame
          rw [ih (List.append_cancel_left hbytes ▸ hrest)]
      | broken hbad _ => exact absurd ⟨rest, hbytes⟩ (hbad.no_char c)
  | @broken bad rest text hbad _ ih =>
      generalize hbytes : bad ++ rest = bytes at h'
      cases h' with
      | nil => exact absurd (List.append_eq_nil_iff.1 hbytes).1 hbad.ne_nil
      | char d _ => exact absurd ⟨_, hbytes.symm⟩ (hbad.no_char d)
      | broken hbad' hrest => rw [ih ((hbad.unique hbad' hbytes).2 ▸ hrest)]

/-- A character of the text stands in the bytes, unless it stands for broken ones. -/
theorem infix_of_mem (h : Decodes bytes text) (hc : c ∈ text) :
    c = replacement ∨ utf8EncodeChar c <:+: bytes := by
  induction h with
  | nil => cases hc
  | @char rest text d _ ih =>
      rcases List.mem_cons.1 hc with rfl | hc
      · exact .inr ⟨[], rest, rfl⟩
      · exact (ih hc).imp_right fun h => h.trans (List.suffix_append _ rest).isInfix
  | @broken bad rest text _ _ ih =>
      rcases List.mem_cons.1 hc with rfl | hc
      · exact .inl rfl
      · exact (ih hc).imp_right fun h => h.trans (List.suffix_append _ rest).isInfix

/-- Without a replacement character, the text is what the bytes write. -/
theorem eq_encode (h : Decodes bytes text) (hno : replacement ∉ text) : bytes = encode text := by
  induction h with
  | nil => rfl
  | char c _ ih =>
      rw [ih fun hmem => hno (List.mem_cons_of_mem c hmem), encode, encode, List.flatMap_cons]
  | broken _ _ _ => exact absurd List.mem_cons_self hno

end Decodes

theorem decodes_decode (bytes : List UInt8) : Decodes bytes (decode bytes) :=
  (decodes_decodeFrom bytes).1

/-- The text of some bytes is what the standard recommends. -/
theorem decodes_iff : Decodes bytes text ↔ text = decode bytes :=
  ⟨fun h => h.unique (decodes_decode bytes), fun h => h ▸ decodes_decode bytes⟩

/-! ### Bytes of a text -/

/-- Some bytes are those of a text. -/
def IsText (bytes : List UInt8) : Prop :=
  ∃ s, bytes = encode s

theorem isText_iff : IsText bytes ↔ encode (decode bytes) = bytes := by
  constructor
  · intro ⟨s, hs⟩
    rw [hs, decode_encode]
  · intro h
    exact ⟨_, h.symm⟩

instance : DecidablePred IsText := fun _ => decidable_of_iff _ isText_iff.symm

/-- What is no text leaves a replacement character. -/
theorem replacement_mem_decode (h : ¬ IsText bytes) : replacement ∈ decode bytes := by
  by_contra hno
  exact h ⟨_, (decodes_decode bytes).eq_encode hno⟩

end PipeSheet.Text.Utf8
