import PipeSheet.Proofs.Formula.Partition
import PipeSheet.Text.Utf8
/-!
# PipeSheet.Proofs.Formula.Lexer

**A lexer answers with the lexemes of its source, one call after another.**

Finding the next lexeme is left to a scanner, of which only this is known: it skips the declared
spaces, takes the longest match of a token, and where nothing matches fails on one character.
Whatever the scanner is, the lexer goes through the lexemes of its source in order, goes on after an
error, and then answers forever that there is none (`Lexer.result_of_fallsInto`).

* `Scanner`, `Scanner.Lawful`: scanners, and what is known of one;
* `Lexer`, `Lexer.nextToken`, `Lexer.result`: the lexer, one call, and the call of a number;
* `Scanner.byClass`: a scanner;
* `lexemes_partition`: the answers, and how they partition the source.
-/

namespace PipeSheet.Formula

open Text (byteLength dropBytes? takeBytes?)

/-! ### Scanners -/

/-- The texts of tokens of a kind. -/
def TokenKind.Matches : TokenKind → List Char → Prop
  | .plus, text => text = ['+']
  | .word, text => text ≠ [] ∧ ∀ c ∈ text, isWordChar c

/-- A text is a token, and no longer token begins where it begins. -/
structure TokenKind.LongestMatch (kind : TokenKind) (text after : List Char) : Prop where
  isMatch : kind.Matches text
  longest : ∀ (kind' : TokenKind) (text' : List Char), kind'.Matches text' →
    text' <+: text ++ after → text'.length ≤ text.length

/-- What a scanner finds, from one offset to another: a token of a kind, or something else. -/
structure Found where
  kind? : Option TokenKind
  start : Nat
  stop : Nat

/-- A scanner goes on in a source at an offset. -/
abbrev Scanner := List Char → Nat → Option Found

/-- What is known of a scanner: it skips spaces, takes the longest match, and fails on one character
where there is none. -/
structure Scanner.Lawful (scan : Scanner) : Prop where
  exhausted : ∀ {before skipped : List Char}, (∀ c ∈ skipped, c ∈ spaces) →
    scan (before ++ skipped) (byteLength before) = none
  matched : ∀ {before skipped text after : List Char} {kind : TokenKind},
    (∀ c ∈ skipped, c ∈ spaces) → kind.LongestMatch text after →
    scan (before ++ skipped ++ text ++ after) (byteLength before) =
      some ⟨some kind, byteLength (before ++ skipped), byteLength (before ++ skipped ++ text)⟩
  unmatched : ∀ {before skipped after : List Char} {c : Char}, (∀ c ∈ skipped, c ∈ spaces) →
    c ∉ spaces → (∀ (kind : TokenKind) (text : List Char), kind.Matches text →
      ¬ text <+: c :: after) →
    scan (before ++ skipped ++ [c] ++ after) (byteLength before) =
      some ⟨none, byteLength (before ++ skipped), byteLength (before ++ skipped ++ [c])⟩

/-! ### Lexers -/

/-- A lexer: its source, and the offset that it has come to. -/
structure Lexer where
  source : List Char
  offset : Nat := 0

/-- The answer of a lexer that comes to a lexeme, or to none. -/
def Lexeme.answer : Option Lexeme → Except Unrecognized (Option Token)
  | none => .ok none
  | some (.token t) => .ok (some t)
  | some (.unrecognized u) => .error u

namespace Lexer

/-- Asks for the next token. An error is about the whole character at which the scanner failed. -/
def nextToken (scan : Scanner) (l : Lexer) : Except Unrecognized (Option Token) × Lexer :=
  match scan l.source l.offset with
  | none => (.ok none, { l with offset := byteLength l.source })
  | some ⟨none, start, stop⟩ =>
    let found := ((dropBytes? start l.source).bind List.head?).getD Text.Utf8.replacement
    (.error ⟨found, .ofRange start (start + found.utf8Size)⟩, { l with offset := stop })
  | some ⟨some kind, start, stop⟩ =>
    let text := ((dropBytes? start l.source).bind (takeBytes? (stop - start))).getD []
    (.ok (some ⟨kind, text, .ofRange start stop⟩), { l with offset := stop })

/-- The lexer after some calls. -/
def after (scan : Scanner) (l : Lexer) : Nat → Lexer
  | 0 => l
  | calls + 1 => after scan (l.nextToken scan).2 calls

/-- The answer to a call, after some earlier ones. -/
def result (scan : Scanner) (l : Lexer) (calls : Nat) : Except Unrecognized (Option Token) :=
  ((l.after scan calls).nextToken scan).1

end Lexer

/-! ### Calls -/

section Calls

variable {scan : Scanner} {before after skipped rest source : List Char} {l : Lexeme} {t : Token}
  {u : Unrecognized} {ls : List Lexeme}

/-- A token that stands in a source is the longest match there. -/
theorem Lexeme.StandsAt.longestMatch (h : (Lexeme.token t).StandsAt before after) :
    t.kind.LongestMatch t.text after := by
  cases hkind : t.kind with
  | plus =>
      have htext := h.plus t rfl hkind
      refine ⟨htext, fun kind' text' hmatch hprefix => ?_⟩
      cases kind' with
      | plus => rw [hmatch, htext]
      | word =>
          obtain ⟨hne, hword⟩ := hmatch
          obtain ⟨c, more, rfl⟩ := List.exists_cons_of_ne_nil hne
          rw [htext] at hprefix
          obtain ⟨rfl, _⟩ := List.cons_prefix_cons.1 hprefix
          exact absurd (hword '+' List.mem_cons_self) (by decide)
  | word =>
      obtain ⟨hne, hword, _, hafter⟩ := h.word t rfl hkind
      refine ⟨⟨hne, hword⟩, fun kind' text' hmatch hprefix => ?_⟩
      cases kind' with
      | plus =>
          rw [hmatch]
          exact List.length_pos_iff.2 hne
      | word =>
          obtain ⟨more, hmore⟩ := hprefix
          rcases List.append_eq_append_iff.1 hmore with ⟨others, hothers, _⟩ |
            ⟨others, hothers, hback⟩
          · rw [hothers, List.length_append]
            exact Nat.le_add_right _ _
          · cases others with
            | nil => rw [hothers, List.append_nil]
            | cons c others =>
                -- A longer word would go on with a character that ends the word.
                have hc : isWordChar c := hmatch.2 c (by rw [hothers]; simp)
                exact absurd hc (hafter c (by rw [hback]; rfl))

/-- Nothing matches where an unrecognized character stands. -/
theorem Lexeme.StandsAt.not_matches (h : (Lexeme.unrecognized u).StandsAt before after)
    (kind : TokenKind) (text : List Char) (hmatch : kind.Matches text) :
    ¬ text <+: u.found :: after := by
  intro hprefix
  obtain ⟨_, hplus, hword⟩ := h.unrecognized u rfl
  cases kind with
  | plus =>
      obtain rfl : text = ['+'] := hmatch
      exact hplus (List.cons_prefix_cons.1 hprefix).1.symm
  | word =>
      obtain ⟨hne, hall⟩ := hmatch
      obtain ⟨c, more, rfl⟩ := List.exists_cons_of_ne_nil hne
      obtain ⟨rfl, _⟩ := List.cons_prefix_cons.1 hprefix
      exact hword (hall _ List.mem_cons_self)

namespace Lexer

/-- A call comes to the lexeme that stands behind the next spaces. -/
theorem nextToken_eq (hscan : scan.Lawful) (hskipped : ∀ c ∈ skipped, c ∈ spaces)
    (hl : l.StandsAt (before ++ skipped) rest) :
    nextToken scan ⟨before ++ skipped ++ l.text ++ rest, byteLength before⟩ =
      (Lexeme.answer (some l),
        ⟨before ++ skipped ++ l.text ++ rest, byteLength (before ++ skipped ++ l.text)⟩) := by
  have hdrop : dropBytes? (byteLength (before ++ skipped)) (before ++ skipped ++ l.text ++ rest) =
      some (l.text ++ rest) := by
    rw [List.append_assoc (before ++ skipped), Text.dropBytes?_append]
  have hlength : byteLength (before ++ skipped ++ l.text) - byteLength (before ++ skipped) =
      byteLength l.text := by
    rw [Text.byteLength_append (before ++ skipped)]
    omega
  have hspan := hl.span_eq
  cases l with
  | token t =>
      have hfound :=
        @Scanner.Lawful.matched _ hscan before skipped _ rest _ hskipped hl.longestMatch
      unfold nextToken
      simp only [Lexeme.text, Lexeme.span] at hfound hdrop hlength hspan ⊢
      simp only [hfound, hdrop, hlength, Option.bind_some, Text.takeBytes?_append, Option.getD_some,
        ← hspan, Lexeme.answer]
  | unrecognized u =>
      have hfound := @Scanner.Lawful.unmatched _ hscan before skipped rest _ hskipped
        (hl.unrecognized u rfl).1 hl.not_matches
      unfold nextToken
      simp only [Lexeme.text, Lexeme.span] at hfound hdrop hlength hspan ⊢
      rw [Text.byteLength_append (before ++ skipped)] at hspan
      simp only [hfound, hdrop, Option.bind_some, List.cons_append, List.head?_cons,
        Option.getD_some, Lexeme.answer]
      simp only [Text.byteLength_cons, Text.byteLength_nil, Nat.add_zero] at hspan
      rw [← hspan]

/-- Where only spaces are left, every call answers that there is nothing. -/
theorem result_of_spaces (hscan : scan.Lawful) (hskipped : ∀ c ∈ skipped, c ∈ spaces)
    (calls : Nat) :
    result scan ⟨before ++ skipped, byteLength before⟩ calls = .ok none := by
  have hnext : ∀ before skipped : List Char, (∀ c ∈ skipped, c ∈ spaces) →
      nextToken scan ⟨before ++ skipped, byteLength before⟩ =
        (.ok none, ⟨before ++ skipped, byteLength (before ++ skipped)⟩) := by
    intro before skipped hskipped
    unfold nextToken
    simp only [hscan.exhausted hskipped]
  induction calls generalizing before skipped with
  | zero => rw [result, Lexer.after, hnext before skipped hskipped]
  | succ calls ih =>
      rw [result, Lexer.after, hnext before skipped hskipped]
      have hend := @ih (before ++ skipped) [] (by simp)
      rwa [List.append_nil] at hend

/-- The answers are the lexemes in order, and then always that there is none. -/
theorem result_of_fallsInto (hscan : scan.Lawful) (h : FallsInto before rest ls) (calls : Nat) :
    result scan ⟨before ++ rest, byteLength before⟩ calls = Lexeme.answer ls[calls]? := by
  induction h generalizing calls with
  | done hskipped => exact result_of_spaces hscan hskipped calls
  | @next before skipped rest first ls hskipped hfirst _ ih =>
      have hnext := nextToken_eq hscan hskipped hfirst
      have hassoc : before ++ (skipped ++ first.text ++ rest) =
          before ++ skipped ++ first.text ++ rest := by simp only [List.append_assoc]
      rw [hassoc]
      cases calls with
      | zero => rw [result, Lexer.after, hnext, List.getElem?_cons_zero]
      | succ calls =>
          rw [result, Lexer.after, hnext, List.getElem?_cons_succ]
          exact ih calls

end Lexer

end Calls

/-! ### A scanner -/

/-- The scanner that goes by the classes of characters alone. -/
def Scanner.byClass : Scanner := fun source offset =>
  match dropBytes? offset source with
  | none => none
  | some rest =>
    let start := offset + byteLength (rest.takeWhile isSpace)
    match rest.dropWhile isSpace with
    | [] => none
    | c :: more =>
      if c = '+' then some ⟨some .plus, start, start + byteLength ['+']⟩
      else if isWordChar c then
        some ⟨some .word, start, start + byteLength ((c :: more).takeWhile isWordChar)⟩
      else some ⟨none, start, start + byteLength [c]⟩

theorem Scanner.byClass_eq {before skipped more : List Char} {c : Char}
    (hskipped : ∀ c ∈ skipped, c ∈ spaces) (hc : c ∉ spaces) :
    Scanner.byClass (before ++ skipped ++ c :: more) (byteLength before) =
      if c = '+' then
        some ⟨some .plus, byteLength (before ++ skipped), byteLength (before ++ skipped ++ ['+'])⟩
      else if isWordChar c then some ⟨some .word, byteLength (before ++ skipped),
        byteLength (before ++ skipped ++ (c :: more).takeWhile isWordChar)⟩
      else some ⟨none, byteLength (before ++ skipped), byteLength (before ++ skipped ++ [c])⟩ := by
  have hspaces : ∀ d ∈ skipped, isSpace d = true := fun d hd => isSpace_iff_mem.2 (hskipped d hd)
  have hstop : ¬ isSpace c = true := fun h => hc (isSpace_iff_mem.1 h)
  have htake : (skipped ++ c :: more).takeWhile isSpace = skipped := by
    rw [List.takeWhile_append_of_pos hspaces, List.takeWhile_cons_of_neg hstop, List.append_nil]
  have hdrop : (skipped ++ c :: more).dropWhile isSpace = c :: more := by
    rw [List.dropWhile_append_of_pos hspaces, List.dropWhile_cons_of_neg hstop]
  unfold Scanner.byClass
  rw [List.append_assoc, Text.dropBytes?_append]
  simp only [htake, hdrop, Text.byteLength_append]

theorem Scanner.byClass_lawful : Scanner.byClass.Lawful := by
  refine ⟨fun {before skipped} hskipped => ?_,
    fun {before skipped text after kind} hskipped hmatch => ?_,
    fun {before skipped after c} hskipped hspace hno => ?_⟩
  · have hdrop : skipped.dropWhile isSpace = [] :=
      List.dropWhile_eq_nil_iff.2 fun c hc => isSpace_iff_mem.2 (hskipped c hc)
    unfold Scanner.byClass
    rw [Text.dropBytes?_append]
    simp only [hdrop]
  · cases kind with
    | plus =>
        obtain rfl : text = ['+'] := hmatch.isMatch
        rw [List.append_assoc (before ++ skipped), List.singleton_append,
          Scanner.byClass_eq hskipped plus_not_mem_spaces, if_pos rfl]
    | word =>
        obtain ⟨hne, hword⟩ := hmatch.isMatch
        obtain ⟨c, more, rfl⟩ := List.exists_cons_of_ne_nil hne
        have hc := hword c List.mem_cons_self
        have hspace : c ∉ spaces := fun h => by simp [not_isWordChar_of_mem_spaces h] at hc
        have hplus : c ≠ '+' := fun h => by simp [h, isWordChar] at hc
        -- If the word could go on, it would not be the longest match.
        have hend : after.takeWhile isWordChar = [] := by
          cases after with
          | nil => rfl
          | cons d after =>
              refine List.takeWhile_cons_of_neg fun hd => ?_
              have hlonger := hmatch.longest .word (c :: more ++ [d])
                ⟨by simp, fun e he => ?_⟩ ⟨after, by simp⟩
              · rw [List.length_append, List.length_singleton] at hlonger
                omega
              · rcases List.mem_append.1 he with he | he
                · exact hword e he
                · exact List.mem_singleton.1 he ▸ hd
        have htake : (c :: (more ++ after)).takeWhile isWordChar = c :: more := by
          rw [← List.cons_append, List.takeWhile_append_of_pos hword, hend, List.append_nil]
        rw [List.append_assoc (before ++ skipped), List.cons_append,
          Scanner.byClass_eq hskipped hspace, if_neg hplus, if_pos hc, htake]
  · have hplus : c ≠ '+' := fun h => hno .plus ['+'] rfl ⟨after, by rw [h]; rfl⟩
    have hword : ¬ isWordChar c := fun h => hno .word [c]
      ⟨List.cons_ne_nil _ _, fun d hd => List.mem_singleton.1 hd ▸ h⟩ ⟨after, rfl⟩
    rw [List.append_assoc (before ++ skipped), List.singleton_append,
      Scanner.byClass_eq hskipped hspace, if_neg hplus, if_neg hword]

/-! ### The partition -/

/-- A lexer answers with the lexemes of its source, and these partition it: each has a place of its
own, one behind the other, and only spaces are between them. -/
theorem lexemes_partition {scan : Scanner} (hscan : scan.Lawful) {source : List Char}
    (hsize : byteLength source < 2 ^ 32) :
    (∀ calls, Lexer.result scan ⟨source, 0⟩ calls = Lexeme.answer (lexemes source)[calls]?) ∧
    (∀ l ∈ lexemes source, l.span.start < l.span.stop ∧ l.span.slice? source = some l.text ∧
      ∃ before after, source = before ++ l.text ++ after ∧ l.StandsAt before after) ∧
    (lexemes source).Pairwise (fun l l' => l.span.stop ≤ l'.span.start) ∧
    (∀ before c after byte, source = before ++ c :: after → byteLength before ≤ byte →
      byte < byteLength (before ++ [c]) →
      ((∃ l ∈ lexemes source, Covers l.span byte) ↔ c ∉ spaces)) ∧
    (∀ tokens : List Token, tokenize source = .ok tokens ↔ lexemes source = tokens.map .token) ∧
    ∀ u, tokenize source = .error u ↔ ∃ (tokens : List Token) (rest : List Lexeme),
      lexemes source = tokens.map .token ++ .unrecognized u :: rest := by
  have hfalls := fallsInto_lexemes source
  refine ⟨Lexer.result_of_fallsInto hscan hfalls, fun l hl => ?_, ?_, ?_,
    fun _ => tokensOf_eq_ok_iff, fun _ => tokensOf_eq_error_iff⟩
  · obtain ⟨before, after, hsource, hstands⟩ := hfalls.exists_standsAt hl
    rw [List.nil_append] at hstands
    have hinside : byteLength (before ++ l.text) < 2 ^ 32 := by
      rw [hsource, Text.byteLength_append] at hsize
      omega
    obtain ⟨hstart, hstop⟩ := hstands.offsets hinside
    refine ⟨?_, ?_, before, after, hsource, hstands⟩
    · have hpos : 0 < byteLength l.text :=
        Nat.lt_of_lt_of_le (List.length_pos_iff.2 hstands.text_ne_nil) (Text.length_le_byteLength _)
      rw [UInt32.lt_iff_toNat_lt, hstart, hstop, Text.byteLength_append]
      omega
    · conv => lhs; rw [hsource]
      rw [hstands.span_eq, Text.byteLength_append]
      exact Span.slice?_ofRange hinside
  · exact (hfalls.pairwise hsize).imp fun h => UInt32.le_iff_toNat_le.2 h
  · intro before c after byte hsource hlow hhigh
    exact hfalls.covered_iff hsize hsource hlow hhigh

/-- A word, a tab, a plus sign, a space, a character of two bytes that is no token, and a word. -/
theorem lexemes_partition_of_mixed :
    Scanner.byClass.Lawful ∧ byteLength "A1\t+ é_2".toList < 2 ^ 32 ∧
    (∀ calls, Lexer.result Scanner.byClass ⟨"A1\t+ é_2".toList, 0⟩ calls =
      Lexeme.answer (lexemes "A1\t+ é_2".toList)[calls]?) ∧
    lexemes "A1\t+ é_2".toList =
      [.token ⟨.word, ['A', '1'], ⟨0, 2⟩⟩, .token ⟨.plus, ['+'], ⟨3, 4⟩⟩,
        .unrecognized ⟨'é', ⟨5, 7⟩⟩, .token ⟨.word, ['_', '2'], ⟨7, 9⟩⟩] :=
  ⟨Scanner.byClass_lawful, by decide, (lexemes_partition Scanner.byClass_lawful (by decide)).1,
    by decide +kernel⟩

end PipeSheet.Formula
