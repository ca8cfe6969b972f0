import Mathlib.Data.List.TakeWhile
import PipeSheet.Proofs.Formula.Scan
/-!
# PipeSheet.Proofs.Formula.Partition

**The lexemes of a text are what is left of it when its spaces are taken away.**

A text falls into spaces, a lexeme, spaces, a lexeme, and so on to its end (`FallsInto`). This says
where each lexeme stands, and what the characters between two of them are; so the spans of lexemes
follow one another, and the bytes under no span are those of spaces.

* `Ordinary`: the characters that are not foreign to formulas;
* `Lexeme.StandsAt`, `FallsInto`: a lexeme in its place, and all of them in theirs;
* `fallsInto_lexemesFrom`: what a text falls into;
* `FallsInto.pairwise`, `FallsInto.covered_iff`: the order of the spans, and what they cover;
* `tokensOf_eq_ok_iff`, `tokensOf_eq_error_iff`: the tokens, or the first error.
-/

namespace PipeSheet.Formula

open Text (byteLength)

/-! ### Lexemes in their places -/

/-- The characters that are skipped. -/
def spaces : List Char := [' ', '\t', '\n', '\r', '\x0b', '\x0c']

/-- The characters that tokens and the gaps between them consist of. -/
def Ordinary (c : Char) : Prop :=
  c ∈ spaces ∨ c = '+' ∨ isWordChar c

/-- Where a lexeme is. -/
def Lexeme.span : Lexeme → Span
  | .token t => t.span
  | .unrecognized u => u.span

/-- The text of a lexeme. -/
def Lexeme.text : Lexeme → List Char
  | .token t => t.text
  | .unrecognized u => [u.found]

/-- The lexeme is what stands in a source between two parts of it: a plus sign, a word that goes on
neither to the left nor to the right, or a character that belongs nowhere. -/
structure Lexeme.StandsAt (l : Lexeme) (before after : List Char) : Prop where
  span_eq : l.span = .ofRange (byteLength before) (byteLength (before ++ l.text))
  plus : ∀ t, l = .token t → t.kind = .plus → t.text = ['+']
  word : ∀ t, l = .token t → t.kind = .word → t.text ≠ [] ∧ (∀ c ∈ t.text, isWordChar c) ∧
    (∀ c ∈ before.getLast?, ¬ isWordChar c) ∧ ∀ c ∈ after.head?, ¬ isWordChar c
  unrecognized : ∀ u, l = .unrecognized u → u.found ∉ spaces ∧ u.found ≠ '+' ∧ ¬ isWordChar u.found

/-- A byte of a source lies under a span. -/
def Covers (span : Span) (byte : Nat) : Prop :=
  span.start.toNat ≤ byte ∧ byte < span.stop.toNat

/-- What is left of a source after the part `before` falls into spaces and the lexemes. -/
inductive FallsInto : List Char → List Char → List Lexeme → Prop
  | done {before skipped : List Char} : (∀ c ∈ skipped, c ∈ spaces) → FallsInto before skipped []
  | next {before skipped rest : List Char} {l : Lexeme} {ls : List Lexeme} :
      (∀ c ∈ skipped, c ∈ spaces) → l.StandsAt (before ++ skipped) rest →
      FallsInto (before ++ skipped ++ l.text) rest ls →
      FallsInto before (skipped ++ l.text ++ rest) (l :: ls)

/-! ### Characters -/

theorem isSpace_iff_mem {c : Char} : isSpace c = true ↔ c ∈ spaces := by
  have hcode : ∀ d : Char, c = d ↔ c.toNat = d.toNat := fun d => ⟨congrArg _, Char.toNat_inj.1⟩
  have hspaces : c ∈ spaces ↔ c.toNat ∈ spaces.map Char.toNat := by
    simp only [spaces, List.map_cons, List.map_nil, List.mem_cons, List.not_mem_nil, hcode]
  have hcodes : spaces.map Char.toNat = [32, 9, 10, 13, 11, 12] := rfl
  have hblank : (' ').toNat = 32 := rfl
  rw [hspaces, hcodes]
  simp only [isSpace, hcode, hblank, Bool.or_eq_true, Bool.and_eq_true, decide_eq_true_eq,
    List.mem_cons, List.not_mem_nil, or_false]
  omega

theorem not_isWordChar_of_mem_spaces {c : Char} (h : c ∈ spaces) : isWordChar c = false := by
  have hall : spaces.all (fun d => !isWordChar d) = true := by decide
  simpa using List.all_eq_true.1 hall c h

theorem plus_not_mem_spaces : '+' ∉ spaces := by decide

/-! ### Cutting a text -/

/-- The lexemes of the rest of a source, which begins at an offset. -/
def lexemesFrom (start : Nat) (rest : List Char) : List Lexeme :=
  (locateRuns start (runs rest)).filterMap Lexeme.ofRun?

section Cutting

variable {c : Char} {start : Nat} {word rest skipped : List Char}

theorem runs_cons (hc : isWordChar c = false) (rest : List Char) :
    runs (c :: rest) = [c] :: runs rest := by
  have happend : runs ([c] ++ rest) = runs [c] ++ runs rest :=
    List.splitBy_append fun x hx y _ => by
      obtain rfl : c = x := by simpa using hx
      rw [hc, Bool.false_and]
  exact happend

theorem runs_word (hne : word ≠ []) (hword : ∀ c ∈ word, isWordChar c)
    (hend : ∀ c ∈ rest.head?, ¬ isWordChar c) : runs (word ++ rest) = word :: runs rest := by
  have happend : runs (word ++ rest) = runs word ++ runs rest :=
    List.splitBy_append fun x _ y hy => by
      rw [Bool.eq_false_iff.2 (hend y hy), Bool.and_false]
  have hchain : word.IsChain fun a b => isWordChar a && isWordChar b :=
    (List.pairwise_of_forall_mem_list fun a ha b hb => by
      rw [hword a ha, hword b hb, Bool.and_self]).isChain
  rw [happend, runs, List.splitBy_of_isChain hne hchain]
  rfl

theorem lexemesFrom_space (hc : c ∈ spaces) (start : Nat) (rest : List Char) :
    lexemesFrom start (c :: rest) = lexemesFrom (start + c.utf8Size) rest := by
  rw [lexemesFrom, runs_cons (not_isWordChar_of_mem_spaces hc), locateRuns,
    List.filterMap_cons_none]
  · rfl
  · simp [Lexeme.ofRun?, isSpace_iff_mem.2 hc]

theorem lexemesFrom_skipped (h : ∀ c ∈ skipped, c ∈ spaces) (start : Nat) (rest : List Char) :
    lexemesFrom start (skipped ++ rest) = lexemesFrom (start + byteLength skipped) rest := by
  induction skipped generalizing start with
  | nil => rfl
  | cons c skipped ih =>
      rw [List.cons_append, lexemesFrom_space (h c List.mem_cons_self),
        ih fun d hd => h d (List.mem_cons_of_mem c hd), Text.byteLength_cons, Nat.add_assoc]

theorem lexemesFrom_plus (start : Nat) (rest : List Char) :
    lexemesFrom start ('+' :: rest) =
      .token ⟨.plus, ['+'], .ofRange start (start + byteLength ['+'])⟩ ::
        lexemesFrom (start + byteLength ['+']) rest := by
  rw [lexemesFrom, runs_cons (by decide), locateRuns, List.filterMap_cons_some]
  · rfl
  · rfl

theorem lexemesFrom_word (hne : word ≠ []) (hword : ∀ c ∈ word, isWordChar c)
    (hend : ∀ c ∈ rest.head?, ¬ isWordChar c) (start : Nat) :
    lexemesFrom start (word ++ rest) =
      .token ⟨.word, word, .ofRange start (start + byteLength word)⟩ ::
        lexemesFrom (start + byteLength word) rest := by
  rw [lexemesFrom, runs_word hne hword hend, locateRuns, List.filterMap_cons_some]
  · rfl
  · cases word with
    | nil => exact absurd rfl hne
    | cons c word =>
        have hc := hword c List.mem_cons_self
        have hspace : isSpace c = false := Bool.eq_false_iff.2 fun hspace => by
          simp [not_isWordChar_of_mem_spaces (isSpace_iff_mem.1 hspace)] at hc
        have hplus : c ≠ '+' := fun hplus => by simp [hplus, isWordChar] at hc
        simp [Lexeme.ofRun?, hspace, hplus, hc]

theorem lexemesFrom_unrecognized (hspace : c ∉ spaces) (hplus : c ≠ '+') (hword : ¬ isWordChar c)
    (start : Nat) (rest : List Char) :
    lexemesFrom start (c :: rest) =
      .unrecognized ⟨c, .ofRange start (start + byteLength [c])⟩ ::
        lexemesFrom (start + byteLength [c]) rest := by
  rw [lexemesFrom, runs_cons (Bool.eq_false_iff.2 hword), locateRuns,
    List.filterMap_cons_some]
  · rfl
  · rw [← isSpace_iff_mem] at hspace
    simp [Lexeme.ofRun?, hspace, hplus, hword]

/-- The longest beginning of a text with characters of one class. -/
theorem exists_eq_append_of_class (p : Char → Bool) (s : List Char) :
    ∃ front back, s = front ++ back ∧ (∀ c ∈ front, p c) ∧ ∀ c ∈ back.head?, ¬ p c := by
  refine ⟨s.takeWhile p, s.dropWhile p, List.takeWhile_append_dropWhile.symm,
    fun c hc => List.all_eq_true.1 List.all_takeWhile c hc, fun c hc => ?_⟩
  have hhead := List.head?_dropWhile_not p s
  rw [Option.mem_def.1 hc] at hhead
  simpa using hhead

/-- A single character that is in no word is a lexeme by itself. -/
theorem Lexeme.standsAt_plus (before after : List Char) :
    (Lexeme.token ⟨.plus, ['+'], .ofRange (byteLength before)
      (byteLength (before ++ ['+']))⟩).StandsAt before after := by
  refine ⟨rfl, fun t ht _ => ?_, fun t ht hkind => ?_, fun u hu => ?_⟩
  · cases ht
    rfl
  · cases ht
    cases hkind
  · cases hu

theorem Lexeme.standsAt_word {before after : List Char} (hne : word ≠ [])
    (hword : ∀ c ∈ word, isWordChar c) (hbefore : ∀ c ∈ before.getLast?, ¬ isWordChar c)
    (hafter : ∀ c ∈ after.head?, ¬ isWordChar c) :
    (Lexeme.token ⟨.word, word, .ofRange (byteLength before)
      (byteLength (before ++ word))⟩).StandsAt before after := by
  refine ⟨rfl, fun t ht hkind => ?_, fun t ht _ => ?_, fun u hu => ?_⟩
  · cases ht
    cases hkind
  · cases ht
    exact ⟨hne, hword, hbefore, hafter⟩
  · cases hu

theorem Lexeme.standsAt_unrecognized {before after : List Char} (hspace : c ∉ spaces)
    (hplus : c ≠ '+') (hword : ¬ isWordChar c) :
    (Lexeme.unrecognized ⟨c, .ofRange (byteLength before)
      (byteLength (before ++ [c]))⟩).StandsAt before after := by
  refine ⟨rfl, fun t ht => ?_, fun t ht => ?_, fun u hu => ?_⟩
  · cases ht
  · cases ht
  · cases hu
    exact ⟨hspace, hplus, hword⟩

/-- A text falls into its lexemes, if it does not begin in the middle of a word. -/
theorem fallsInto_lexemesFrom {before : List Char}
    (hcut : ∀ c ∈ before.getLast?, isWordChar c → ∀ d ∈ rest.head?, ¬ isWordChar d) :
    FallsInto before rest (lexemesFrom (byteLength before) rest) := by
  induction hlength : rest.length using Nat.strongRecOn generalizing before rest with
  | ind n ih =>
      obtain ⟨skipped, back, rfl, hskipped, hback⟩ := exists_eq_append_of_class isSpace rest
      simp only [isSpace_iff_mem] at hskipped hback
      rw [lexemesFrom_skipped hskipped, ← Text.byteLength_append]
      -- Behind a single character that is in no word, no word is cut.
      have hsingle : ∀ (c : Char) (more : List Char), skipped.length + (more.length + 1) = n →
          ¬ isWordChar c → FallsInto (before ++ skipped ++ [c]) more
            (lexemesFrom (byteLength (before ++ skipped ++ [c])) more) := by
        intro c more hmore hc
        refine ih more.length (by omega) (fun d hd hd' => ?_) rfl
        rw [List.getLast?_concat] at hd
        cases hd
        exact absurd hd' hc
      cases back with
      | nil =>
          rw [List.append_nil]
          exact .done hskipped
      | cons c more =>
          have hspace : c ∉ spaces := hback c rfl
          rw [List.length_append, List.length_cons] at hlength
          by_cases hplus : c = '+'
          · subst hplus
            rw [lexemesFrom_plus, ← Text.byteLength_append, List.append_cons]
            exact .next hskipped (Lexeme.standsAt_plus _ _) (hsingle '+' more hlength (by decide))
          · by_cases hword : isWordChar c
            · obtain ⟨word, others, heq, hall, hothers⟩ :=
                exists_eq_append_of_class isWordChar (c :: more)
              have hne : word ≠ [] := by
                rintro rfl
                rw [List.nil_append] at heq
                exact hothers c (by rw [← heq]; rfl) hword
              have hleft : ∀ d ∈ (before ++ skipped).getLast?, ¬ isWordChar d := by
                intro d hd hd'
                rcases List.eq_nil_or_concat' skipped with rfl | ⟨front, last, rfl⟩
                · rw [List.append_nil] at hd
                  exact hcut d hd hd' c rfl hword
                · rw [← List.append_assoc, List.getLast?_concat] at hd
                  cases hd
                  have hlast := not_isWordChar_of_mem_spaces (hskipped d (by simp))
                  rw [hlast] at hd'
                  cases hd'
              rw [heq, lexemesFrom_word hne hall hothers, ← Text.byteLength_append,
                ← List.append_assoc]
              refine .next hskipped (Lexeme.standsAt_word hne hall hleft hothers) ?_
              refine ih others.length ?_ (fun d _ _ => hothers) rfl
              have hpos := List.length_pos_iff.2 hne
              have hsum := congrArg List.length heq
              rw [List.length_cons, List.length_append] at hsum
              omega
            · rw [lexemesFrom_unrecognized hspace hplus hword, ← Text.byteLength_append,
                List.append_cons]
              exact .next hskipped (Lexeme.standsAt_unrecognized hspace hplus hword)
                (hsingle c more hlength hword)

/-- A source falls into its lexemes. -/
theorem fallsInto_lexemes (source : List Char) : FallsInto [] source (lexemes source) :=
  @fallsInto_lexemesFrom source [] nofun

end Cutting

/-! ### Places -/

section Places

variable {before after rest front back : List Char} {l : Lexeme} {ls : List Lexeme} {c : Char}
  {byte : Nat}

namespace Lexeme.StandsAt

theorem text_ne_nil (h : l.StandsAt before after) : l.text ≠ [] := by
  cases l with
  | unrecognized u => exact List.cons_ne_nil _ _
  | token t =>
      cases hkind : t.kind with
      | plus => simp [Lexeme.text, h.plus t rfl hkind]
      | word => exact (h.word t rfl hkind).1

theorem not_mem_spaces (h : l.StandsAt before after) (hc : c ∈ l.text) : c ∉ spaces := by
  cases l with
  | unrecognized u =>
      obtain rfl : c = u.found := List.mem_singleton.1 hc
      exact (h.unrecognized u rfl).1
  | token t =>
      cases hkind : t.kind with
      | plus =>
          rw [Lexeme.text, h.plus t rfl hkind, List.mem_singleton] at hc
          exact hc ▸ plus_not_mem_spaces
      | word =>
          intro hspace
          have hword := (h.word t rfl hkind).2.1 c hc
          rw [not_isWordChar_of_mem_spaces hspace] at hword
          cases hword

/-- In a source with 32-bit offsets the span says where the lexeme stands. -/
theorem offsets (h : l.StandsAt before after) (hsize : byteLength (before ++ l.text) < 2 ^ 32) :
    l.span.start.toNat = byteLength before ∧ l.span.stop.toNat = byteLength (before ++ l.text) := by
  have hle : byteLength before ≤ byteLength (before ++ l.text) := by
    rw [Text.byteLength_append]
    exact Nat.le_add_right _ _
  rw [h.span_eq]
  exact ⟨UInt32.toNat_ofNat_of_lt' (Nat.lt_of_le_of_lt hle hsize), UInt32.toNat_ofNat_of_lt' hsize⟩

end Lexeme.StandsAt

namespace FallsInto

/-- Every lexeme stands in the source. -/
theorem exists_standsAt (h : FallsInto before rest ls) (hl : l ∈ ls) :
    ∃ front back, rest = front ++ l.text ++ back ∧ l.StandsAt (before ++ front) back := by
  induction h with
  | done => cases hl
  | @next before skipped rest first ls _ hfirst _ ih =>
      rcases List.mem_cons.1 hl with rfl | hl
      · exact ⟨skipped, rest, rfl, hfirst⟩
      · obtain ⟨front, back, rfl, hstands⟩ := ih hl
        refine ⟨skipped ++ first.text ++ front, back, by simp only [List.append_assoc], ?_⟩
        rwa [← List.append_assoc, ← List.append_assoc]

/-- No lexeme begins before the rest does. -/
theorem le_start (h : FallsInto before rest ls) (hsize : byteLength (before ++ rest) < 2 ^ 32)
    (hl : l ∈ ls) : byteLength before ≤ l.span.start.toNat := by
  obtain ⟨front, back, rfl, hstands⟩ := h.exists_standsAt hl
  simp only [Text.byteLength_append] at hsize
  rw [(hstands.offsets (by simp only [Text.byteLength_append]; omega)).1, Text.byteLength_append]
  exact Nat.le_add_right _ _

/-- Each lexeme begins behind the one before it. -/
theorem pairwise (h : FallsInto before rest ls) (hsize : byteLength (before ++ rest) < 2 ^ 32) :
    ls.Pairwise fun l l' => l.span.stop.toNat ≤ l'.span.start.toNat := by
  induction h with
  | done => exact .nil
  | @next before skipped rest first ls _ hfirst hrest ih =>
      have hassoc : before ++ (skipped ++ first.text ++ rest) =
          before ++ skipped ++ first.text ++ rest := by simp only [List.append_assoc]
      rw [hassoc] at hsize
      refine List.pairwise_cons.2 ⟨fun l hl => ?_, ih hsize⟩
      have hstop := hfirst.offsets (by rw [Text.byteLength_append] at hsize; omega)
      rw [hstop.2]
      exact hrest.le_start hsize hl

/-- A character of two texts that follow each other is one of the first or one of the second. -/
theorem cases_of_append_eq {xs ys : List Char} (h : xs ++ ys = front ++ c :: back) :
    (∃ middle, xs = front ++ c :: middle) ∨
      ∃ front', front = xs ++ front' ∧ ys = front' ++ c :: back := by
  rcases List.append_eq_append_iff.1 h with ⟨front', hfront, hys⟩ | ⟨middle, hxs, hback⟩
  · exact .inr ⟨front', hfront, hys⟩
  · cases middle with
    | nil => exact .inr ⟨[], by simpa using hxs.symm, hback.symm⟩
    | cons d middle =>
        cases hback
        exact .inl ⟨middle, hxs⟩

/-- The bytes under the spans are those of the characters that are no spaces. -/
theorem covered_iff (h : FallsInto before rest ls) (hsize : byteLength (before ++ rest) < 2 ^ 32)
    (hrest : rest = front ++ c :: back) (hlow : byteLength (before ++ front) ≤ byte)
    (hhigh : byte < byteLength (before ++ front ++ [c])) :
    (∃ l ∈ ls, Covers l.span byte) ↔ c ∉ spaces := by
  induction h generalizing front with
  | done hskipped =>
      have hspace : c ∈ spaces := hskipped c (by simp [hrest])
      refine iff_of_false ?_ (fun hc => hc hspace)
      rintro ⟨l, hl, _⟩
      cases hl
  | @next before skipped rest first ls hskipped hfirst hfalls ih =>
      have hassoc : before ++ (skipped ++ first.text ++ rest) =
          before ++ skipped ++ first.text ++ rest := by simp only [List.append_assoc]
      rw [hassoc] at hsize
      obtain ⟨hstart, hstop⟩ := hfirst.offsets (by rw [Text.byteLength_append] at hsize; omega)
      have hlater : ∀ l ∈ ls, byteLength (before ++ skipped ++ first.text) ≤ l.span.start.toNat :=
        fun l hl => hfalls.le_start hsize hl
      simp only [Text.byteLength_append, Text.byteLength_cons, Text.byteLength_nil] at hlow hhigh
      simp only [Text.byteLength_append] at hstart hstop hlater
      rw [List.append_assoc] at hrest
      rcases cases_of_append_eq hrest with ⟨middle, rfl⟩ | ⟨front₁, rfl, htail⟩
      -- The character is skipped, and all lexemes are behind it.
      · have hspace : c ∈ spaces := hskipped c (by simp)
        refine iff_of_false ?_ (fun hc => hc hspace)
        rintro ⟨l, hl, hcovers, _⟩
        simp only [Text.byteLength_append, Text.byteLength_cons] at hstart hlater
        rcases List.mem_cons.1 hl with rfl | hl
        · omega
        · have := hlater l hl
          omega
      · simp only [Text.byteLength_append] at hlow hhigh
        rcases cases_of_append_eq htail with ⟨middle, hmiddle⟩ | ⟨front₂, rfl, hbehind⟩
        -- It belongs to the first lexeme.
        · have hspace : c ∉ spaces := hfirst.not_mem_spaces (by simp [hmiddle])
          refine iff_of_true ⟨first, List.mem_cons_self, ?_, ?_⟩ hspace
          · omega
          · rw [hmiddle] at hstop
            simp only [Text.byteLength_append, Text.byteLength_cons] at hstop
            omega
        -- It stands behind the first lexeme.
        · simp only [Text.byteLength_append] at hlow hhigh
          have hothers := ih hsize hbehind
            (by simp only [Text.byteLength_append]; omega)
            (by
              simp only [Text.byteLength_append, Text.byteLength_cons, Text.byteLength_nil]
              omega)
          rw [← hothers]
          constructor
          · rintro ⟨l, hl, hcovers⟩
            rcases List.mem_cons.1 hl with rfl | hl
            · have := hcovers.2
              omega
            · exact ⟨l, hl, hcovers⟩
          · rintro ⟨l, hl, hcovers⟩
            exact ⟨l, List.mem_cons_of_mem _ hl, hcovers⟩

end FallsInto

end Places

/-! ### Tokens -/

/-- Lexemes are tokens only, or tokens up to an unrecognized character. -/
theorem exists_tokens_or_error (ls : List Lexeme) :
    (∃ tokens : List Token, ls = tokens.map .token) ∨
      ∃ (tokens : List Token) (u : Unrecognized) (rest : List Lexeme),
        ls = tokens.map .token ++ .unrecognized u :: rest := by
  induction ls with
  | nil => exact .inl ⟨[], rfl⟩
  | cons l ls ih =>
      cases l with
      | unrecognized u => exact .inr ⟨[], u, ls, rfl⟩
      | token t =>
          rcases ih with ⟨tokens, rfl⟩ | ⟨tokens, u, rest, rfl⟩
          · exact .inl ⟨t :: tokens, rfl⟩
          · exact .inr ⟨t :: tokens, u, rest, rfl⟩

theorem tokensOf_tokens (tokens : List Token) : tokensOf (tokens.map .token) = .ok tokens := by
  induction tokens with
  | nil => rfl
  | cons t tokens ih => rw [List.map_cons, tokensOf, ih, Except.map]

theorem tokensOf_error (tokens : List Token) (u : Unrecognized) (rest : List Lexeme) :
    tokensOf (tokens.map .token ++ .unrecognized u :: rest) = .error u := by
  induction tokens with
  | nil => rfl
  | cons t tokens ih => rw [List.map_cons, List.cons_append, tokensOf, ih, Except.map]

theorem tokensOf_eq_ok_iff {ls : List Lexeme} {tokens : List Token} :
    tokensOf ls = .ok tokens ↔ ls = tokens.map .token := by
  refine ⟨fun h => ?_, fun h => h ▸ tokensOf_tokens tokens⟩
  rcases exists_tokens_or_error ls with ⟨tokens', rfl⟩ | ⟨tokens', u, rest, rfl⟩
  · rw [tokensOf_tokens] at h
    cases h
    rfl
  · rw [tokensOf_error] at h
    cases h

theorem tokensOf_eq_error_iff {ls : List Lexeme} {u : Unrecognized} :
    tokensOf ls = .error u ↔ ∃ (tokens : List Token) (rest : List Lexeme),
      ls = tokens.map .token ++ .unrecognized u :: rest := by
  refine ⟨fun h => ?_, fun ⟨tokens, rest, h⟩ => h ▸ tokensOf_error tokens u rest⟩
  rcases exists_tokens_or_error ls with ⟨tokens, rfl⟩ | ⟨tokens, u', rest, rfl⟩
  · rw [tokensOf_tokens] at h
    cases h
  · rw [tokensOf_error] at h
    cases h
    exact ⟨tokens, rest, rfl⟩

end PipeSheet.Formula
