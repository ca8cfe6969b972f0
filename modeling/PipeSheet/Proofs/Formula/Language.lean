import PipeSheet.Proofs.Formula.Sum
/-!
# PipeSheet.Proofs.Formula.Language

**The language of formulas, by the places of its lexemes.**

Counting lexemes from 0, operands stand in the even places and plus signs in the odd ones. The sum
ends at the first operand behind which there is nothing or a word; what stands farther on is never
looked at. If it does not end so, the first place at which it could not go on decides the error.

The reader finds operands from left to right, so each half of the law is one induction: along the
recursion of `scan` to see that what it finds is in the language, and along the operands to see that
it finds all of it.

* `Lexeme.Writes`: a word that is a number, or else a cell name;
* `Sums`, `IsSum`, `FailsAt`, `FailsAfter`: operands with plus signs behind them, a whole sum, the
  error at a place, and the operands in front of an error;
* `exists_read_eq_ok_iff`, `read_eq_error_iff`, `read_congr`: what reads, what does not, and what
  makes no difference;
* `read_language`: the language, its trees and its errors.
-/

namespace PipeSheet.Formula

open Text (byteLength)

/-! ### The language -/

/-- A word that writes an operand: it reads as a number, or else it is a cell name. -/
def Lexeme.Writes (lexeme : Lexeme) (operand : Operand) : Prop :=
  ∃ t, lexeme = .token t ∧ t.kind = .word ∧
    ((∃ value, Number.read? t.text = some value ∧ operand = .number value) ∨
      (Number.read? t.text = none ∧
        ∃ target, Position.ofName? t.text = some target ∧ operand = .ref target))

/-- The lexemes begin with words that write the operands, each of them followed by a plus sign. -/
structure Sums (lexemes : List Lexeme) (operands : List Operand) : Prop where
  operand : ∀ i operand, operands[i]? = some operand →
    ∃ lexeme, lexemes[2 * i]? = some lexeme ∧ lexeme.Writes operand
  plus : ∀ i < operands.length, ∃ t, lexemes[2 * i + 1]? = some (.token t) ∧ t.kind = .plus

/-- What may stand behind the last operand: nothing, or a word. -/
def Ends : Option Lexeme → Prop
  | none => True
  | some (.token t) => t.kind = .word
  | some (.unrecognized _) => False

/-- The lexemes begin with a sum: some operands with plus signs behind them, and a last one. -/
structure IsSum (lexemes : List Lexeme) (operands : List Operand) (last : Operand) : Prop where
  sums : Sums lexemes operands
  last : ∃ lexeme, lexemes[2 * operands.length]? = some lexeme ∧ lexeme.Writes last
  ends : Ends lexemes[2 * operands.length + 1]?

/-- Why no sum can go on at a place where an operand is wanted. The span `stop` is the end of the
formula. -/
inductive FailsAt (stop : Span) (lexemes : List Lexeme) (place : Nat) : FormulaError → Prop
  | unrecognized {u : Unrecognized} :
      lexemes[place]? = some (.unrecognized u) → FailsAt stop lexemes place (.unrecognized u)
  | exhausted : lexemes[place]? = none → FailsAt stop lexemes place (.unexpectedEnd stop)
  | noOperand {t : Token} : lexemes[place]? = some (.token t) →
      (∀ operand, ¬ Lexeme.Writes (.token t) operand) →
      FailsAt stop lexemes place (.invalidReference t.text t.span)
  /-- There is an operand, but an unrecognized character behind it. -/
  | behind {lexeme : Lexeme} {operand : Operand} {u : Unrecognized} :
      lexemes[place]? = some lexeme → lexeme.Writes operand →
      lexemes[place + 1]? = some (.unrecognized u) → FailsAt stop lexemes place (.unrecognized u)

/-- The operands that have been taken when a sum cannot go on, and why it cannot. An operand counts
as taken before the lexeme behind it is looked at. -/
inductive FailsAfter (stop : Span) (lexemes : List Lexeme) : List Operand → FormulaError → Prop
  | unrecognized {operands : List Operand} {u : Unrecognized} : Sums lexemes operands →
      lexemes[2 * operands.length]? = some (.unrecognized u) →
      FailsAfter stop lexemes operands (.unrecognized u)
  | exhausted {operands : List Operand} : Sums lexemes operands →
      lexemes[2 * operands.length]? = none → FailsAfter stop lexemes operands (.unexpectedEnd stop)
  | noOperand {operands : List Operand} {t : Token} : Sums lexemes operands →
      lexemes[2 * operands.length]? = some (.token t) →
      (∀ operand, ¬ Lexeme.Writes (.token t) operand) →
      FailsAfter stop lexemes operands (.invalidReference t.text t.span)
  /-- The last operand has an unrecognized character behind it. -/
  | behind {operands : List Operand} {lexeme : Lexeme} {last : Operand} {u : Unrecognized} :
      Sums lexemes operands → lexemes[2 * operands.length]? = some lexeme → lexeme.Writes last →
      lexemes[2 * operands.length + 1]? = some (.unrecognized u) →
      FailsAfter stop lexemes (operands ++ [last]) (.unrecognized u)

/-! ### Lexemes of a text -/

/-- A plus sign is no operand. -/
def Lexeme.Proper (lexeme : Lexeme) : Prop :=
  ∀ t, lexeme = .token t → t.kind = .plus → Operand.ofText? t.text = none

/-- The text of a plus sign is one character. -/
theorem text_of_plus_mem_lexemes {source : List Char} {t : Token}
    (h : .token t ∈ lexemes source) (hplus : t.kind = .plus) : t.text = ['+'] := by
  obtain ⟨⟨start, text⟩, hrun, htoken⟩ := List.mem_filterMap.1 h
  have hmem : text ∈ runs source := by
    rw [← map_text_locateRuns 0 (runs source)]
    exact List.mem_map_of_mem hrun
  have hchain := List.isChain_of_mem_splitBy hmem
  unfold Lexeme.ofRun? at htoken
  dsimp only at htoken
  split at htoken
  · cases htoken
  · next c rest =>
    split at htoken
    · cases htoken
    · split at htoken
      · next hc =>
        cases htoken
        subst hc
        cases rest with
        | nil => rfl
        | cons d rest =>
            -- A run of several characters has word characters only.
            have hword := (List.isChain_cons_cons.1 hchain).1
            simp [isWordChar] at hword
      · split at htoken
        · cases htoken
          cases hplus
        · cases htoken

theorem proper_of_mem_lexemes {source : List Char} {lexeme : Lexeme} (h : lexeme ∈ lexemes source) :
    lexeme.Proper := by
  rintro t rfl hplus
  rw [text_of_plus_mem_lexemes h hplus]
  decide

variable {stop : Span} {lexeme : Lexeme} {ls rest : List Lexeme} {t : Token} {o : Operand}
  {operands : List Operand}

theorem ofText?_eq_some_iff {text : List Char} : Operand.ofText? text = some o ↔
    (∃ value, Number.read? text = some value ∧ o = .number value) ∨
      (Number.read? text = none ∧ ∃ target, Position.ofName? text = some target ∧
        o = .ref target) := by
  unfold Operand.ofText?
  cases Number.read? text with
  | some value => simp [eq_comm]
  | none =>
      constructor
      · intro h
        obtain ⟨target, htarget, rfl⟩ := Option.map_eq_some_iff.1 h
        exact .inr ⟨rfl, target, htarget, rfl⟩
      · rintro (⟨value, hvalue, _⟩ | ⟨_, target, htarget, rfl⟩)
        · cases hvalue
        · exact congrArg (Option.map Operand.ref) htarget

/-- Among the lexemes of a text, the tokens that write an operand are those that the reader takes
for one. -/
theorem Lexeme.Proper.writes_iff (h : Lexeme.Proper (.token t)) :
    Lexeme.Writes (.token t) o ↔ Operand.ofText? t.text = some o := by
  rw [ofText?_eq_some_iff]
  constructor
  · rintro ⟨t', ht, _, ho⟩
    cases ht
    exact ho
  · intro ho
    refine ⟨t, rfl, ?_, ho⟩
    cases hkind : t.kind with
    | word => rfl
    | plus =>
        rw [← ofText?_eq_some_iff, h t rfl hkind] at ho
        cases ho

/-! ### Places -/

theorem Sums.nil (ls : List Lexeme) : Sums ls [] :=
  ⟨fun i o h => by simp at h, fun i h => by simp at h⟩

theorem Sums.cons (ho : lexeme.Writes o) (ht : t.kind = .plus) (h : Sums rest operands) :
    Sums (lexeme :: .token t :: rest) (o :: operands) := by
  refine ⟨fun i operand hi => ?_, fun i hi => ?_⟩
  · cases i with
    | zero =>
        cases hi
        exact ⟨lexeme, rfl, ho⟩
    | succ i => exact h.operand i operand hi
  · cases i with
    | zero => exact ⟨t, rfl, ht⟩
    | succ i => exact h.plus i (Nat.lt_of_succ_lt_succ hi)

/-- The first operand and its plus sign can be taken off. -/
theorem Sums.exists_of_cons (h : Sums ls (o :: operands)) :
    ∃ lexeme t rest, ls = lexeme :: .token t :: rest ∧ lexeme.Writes o ∧ t.kind = .plus ∧
      Sums rest operands := by
  obtain ⟨lexeme, hfirst, ho⟩ := h.operand 0 o rfl
  obtain ⟨t, hsecond, ht⟩ := h.plus 0 (by simp)
  match ls, hfirst, hsecond with
  | _ :: _ :: rest, rfl, rfl =>
    refine ⟨lexeme, t, rest, rfl, ho, ht, fun i operand hi => ?_, fun i hi => ?_⟩
    · exact h.operand (i + 1) operand hi
    · exact h.plus (i + 1) (Nat.succ_lt_succ hi)

theorem getElem?_past_sum (l l' : Lexeme) (rest : List Lexeme) (o : Operand)
    (operands : List Operand) (j : Nat) :
    (l :: l' :: rest)[2 * (o :: operands).length + j]? = rest[2 * operands.length + j]? := by
  have hindex : 2 * (o :: operands).length + j = 2 * operands.length + j + 1 + 1 := by
    rw [List.length_cons]
    omega
  rw [hindex]
  rfl

theorem failsAt_past_sum {l l' : Lexeme} {e : FormulaError} :
    FailsAt stop (l :: l' :: rest) (2 * (o :: operands).length) e ↔
      FailsAt stop rest (2 * operands.length) e := by
  have h0 := getElem?_past_sum l l' rest o operands 0
  have h1 := getElem?_past_sum l l' rest o operands 1
  constructor
  · rintro (h | h | ⟨h, hno⟩ | ⟨h, hw, hu⟩)
    · exact .unrecognized (h0 ▸ h)
    · exact .exhausted (h0 ▸ h)
    · exact .noOperand (h0 ▸ h) hno
    · exact .behind (h0 ▸ h) hw (h1 ▸ hu)
  · rintro (h | h | ⟨h, hno⟩ | ⟨h, hw, hu⟩)
    · exact .unrecognized (h0 ▸ h)
    · exact .exhausted (h0 ▸ h)
    · exact .noOperand (h0 ▸ h) hno
    · exact .behind (h0 ▸ h) hw (h1 ▸ hu)

/-! ### What is found is in the language -/

/-- Where `scan` finds no error it has found a sum. -/
theorem isSum_of_scan (hproper : ∀ l ∈ ls, l.Proper) (h : (scan stop ls).2 = none) :
    ∃ operands last, (scan stop ls).1 = operands ++ [last] ∧ IsSum ls operands last := by
  fun_induction scan stop ls with
  | case1 => cases h
  | case2 u rest => cases h
  | case3 t rest ht => cases h
  | case4 t o ht u rest => cases h
  | case5 t o ht text span rest ih =>
      have hw := (hproper _ List.mem_cons_self).writes_iff.2 ht
      obtain ⟨operands, last, hfound, hsum⟩ :=
        ih (fun l hl => hproper l (List.mem_cons_of_mem _ (List.mem_cons_of_mem _ hl))) h
      refine ⟨o :: operands, last, by rw [hfound]; rfl, hsum.sums.cons hw rfl, ?_, ?_⟩
      · have hplace := getElem?_past_sum (.token t) (.token ⟨.plus, text, span⟩) rest o operands 0
        exact hplace ▸ hsum.last
      · rw [getElem?_past_sum]
        exact hsum.ends
  | case6 t o ht text span rest =>
      have hw := (hproper _ List.mem_cons_self).writes_iff.2 ht
      exact ⟨[], o, rfl, .nil _, ⟨_, rfl, hw⟩, rfl⟩
  | case7 t o ht =>
      have hw := (hproper _ List.mem_cons_self).writes_iff.2 ht
      exact ⟨[], o, rfl, .nil _, ⟨_, rfl, hw⟩, trivial⟩

/-- An operand and its plus sign may be put in front. -/
theorem FailsAfter.cons {e : FormulaError} (ho : lexeme.Writes o) (ht : t.kind = .plus)
    (h : FailsAfter stop rest operands e) :
    FailsAfter stop (lexeme :: .token t :: rest) (o :: operands) e := by
  have hplace : ∀ operands j, (lexeme :: .token t :: rest)[2 * (o :: operands).length + j]? =
      rest[2 * operands.length + j]? := fun operands j => getElem?_past_sum _ _ rest o operands j
  cases h with
  | unrecognized hsums hu => exact .unrecognized (hsums.cons ho ht) ((hplace _ 0).trans hu)
  | exhausted hsums hnone => exact .exhausted (hsums.cons ho ht) ((hplace _ 0).trans hnone)
  | noOperand hsums hword hno =>
      exact .noOperand (hsums.cons ho ht) ((hplace _ 0).trans hword) hno
  | behind hsums hl hw hu =>
      exact .behind (hsums.cons ho ht) ((hplace _ 0).trans hl) hw ((hplace _ 1).trans hu)

/-- Where `scan` finds an error, it has taken all the operands in front of it. -/
theorem failsAfter_of_scan {e : FormulaError} (hproper : ∀ l ∈ ls, l.Proper)
    (h : (scan stop ls).2 = some e) : FailsAfter stop ls (scan stop ls).1 e := by
  fun_induction scan stop ls with
  | case1 =>
      cases h
      exact .exhausted (.nil _) rfl
  | case2 u rest =>
      cases h
      exact .unrecognized (.nil _) rfl
  | case3 t rest ht =>
      cases h
      refine .noOperand (.nil _) rfl fun o ho => ?_
      rw [(hproper _ List.mem_cons_self).writes_iff, ht] at ho
      cases ho
  | case4 t o ht u rest =>
      cases h
      have hw := (hproper _ List.mem_cons_self).writes_iff.2 ht
      exact .behind (.nil _) rfl hw rfl
  | case5 t o ht text span rest ih =>
      have hw := (hproper _ List.mem_cons_self).writes_iff.2 ht
      have hrest :=
        ih (fun l hl => hproper l (List.mem_cons_of_mem _ (List.mem_cons_of_mem _ hl))) h
      exact hrest.cons hw rfl
  | case6 t o ht text span rest => cases h
  | case7 t o ht => cases h

/-- Where `scan` finds an error, no sum could go on there. -/
theorem failsAt_of_scan {e : FormulaError} (hproper : ∀ l ∈ ls, l.Proper)
    (h : (scan stop ls).2 = some e) :
    ∃ operands, Sums ls operands ∧ FailsAt stop ls (2 * operands.length) e := by
  have hafter := failsAfter_of_scan hproper h
  generalize (scan stop ls).1 = taken at hafter
  cases hafter with
  | unrecognized hsums hu => exact ⟨_, hsums, .unrecognized hu⟩
  | exhausted hsums hnone => exact ⟨_, hsums, .exhausted hnone⟩
  | noOperand hsums hword hno => exact ⟨_, hsums, .noOperand hword hno⟩
  | behind hsums hl hw hu => exact ⟨_, hsums, .behind hl hw hu⟩

/-! ### All of the language is found -/

theorem Lexeme.Proper.exists_token (hproper : lexeme.Proper) (h : lexeme.Writes o) :
    ∃ t, lexeme = .token t ∧ Operand.ofText? t.text = some o := by
  obtain ⟨t, rfl, hrest⟩ := h
  exact ⟨t, rfl, hproper.writes_iff.1 ⟨t, rfl, hrest⟩⟩

theorem scan_sum_cons (ho : Operand.ofText? t.text = some o) {p : Token} (hp : p.kind = .plus) :
    scan stop (.token t :: .token p :: rest) = (o :: (scan stop rest).1, (scan stop rest).2) := by
  obtain ⟨kind, text, span⟩ := p
  obtain rfl : kind = .plus := hp
  rw [scan, ho]

/-- Every sum is found. -/
theorem scan_of_isSum {last : Operand} (hproper : ∀ l ∈ ls, l.Proper) (h : IsSum ls operands last) :
    scan stop ls = (operands ++ [last], none) := by
  induction operands generalizing ls with
  | nil =>
      obtain ⟨lexeme, hfirst, hw⟩ := h.last
      have hends := h.ends
      match ls, hfirst with
      | lexeme :: rest, rfl =>
        obtain ⟨t, rfl, ho⟩ := (hproper _ List.mem_cons_self).exists_token hw
        match rest with
        | [] => simp only [scan, ho]; rfl
        | .unrecognized u :: _ => exact hends.elim
        | .token ⟨kind, text, span⟩ :: _ =>
          obtain rfl : kind = .word := hends
          simp only [scan, ho]
          rfl
  | cons o operands ih =>
      obtain ⟨lexeme, p, rest, rfl, hw, hp, hsums⟩ := h.sums.exists_of_cons
      obtain ⟨t, rfl, ho⟩ := (hproper _ List.mem_cons_self).exists_token hw
      have hlast := h.last
      have hends := h.ends
      rw [getElem?_past_sum] at hends
      have hplace := getElem?_past_sum (.token t) (.token p) rest o operands 0
      rw [Nat.add_zero, Nat.add_zero] at hplace
      rw [hplace] at hlast
      rw [scan_sum_cons ho hp,
        ih (fun l hl => hproper l (List.mem_cons_of_mem _ (List.mem_cons_of_mem _ hl)))
          ⟨hsums, hlast, hends⟩]
      rfl

/-- Every error is found. -/
theorem scan_of_failsAt {e : FormulaError} (hproper : ∀ l ∈ ls, l.Proper) (hsums : Sums ls operands)
    (h : FailsAt stop ls (2 * operands.length) e) : (scan stop ls).2 = some e := by
  induction operands generalizing ls with
  | nil =>
      cases ls with
      | nil => cases h <;> simp_all [scan]
      | cons lexeme rest =>
          have hfirst := hproper lexeme List.mem_cons_self
          cases h with
          | unrecognized hu =>
              cases hu
              rfl
          | exhausted hnone => cases hnone
          | @noOperand t ht hno =>
              cases ht
              have hnone : Operand.ofText? t.text = none :=
                Option.eq_none_iff_forall_ne_some.2 fun o ho => hno o (hfirst.writes_iff.2 ho)
              simp only [scan, hnone]
          | behind hl hw hu =>
              cases hl
              obtain ⟨t, rfl, ho⟩ := hfirst.exists_token hw
              cases rest with
              | nil => cases hu
              | cons next rest =>
                  cases hu
                  simp only [scan, ho]
  | cons o operands ih =>
      obtain ⟨lexeme, p, rest, rfl, hw, hp, hrest⟩ := hsums.exists_of_cons
      obtain ⟨t, rfl, ho⟩ := (hproper _ List.mem_cons_self).exists_token hw
      rw [scan_sum_cons ho hp]
      exact ih (fun l hl => hproper l (List.mem_cons_of_mem _ (List.mem_cons_of_mem _ hl))) hrest
        (failsAt_past_sum.1 h)

/-! ### Reading -/

section Read

variable {source source' : List Char} {last : Operand} {e : FormulaError}

theorem operandsOf_eq_iff :
    (operandsOf source).2 = none ↔ ∃ operands last, IsSum (lexemes source) operands last := by
  constructor
  · intro h
    obtain ⟨operands, last, _, hsum⟩ := isSum_of_scan (fun _ => proper_of_mem_lexemes) h
    exact ⟨operands, last, hsum⟩
  · rintro ⟨operands, last, hsum⟩
    exact congrArg Prod.snd (scan_of_isSum (fun _ => proper_of_mem_lexemes) hsum)

theorem fst_read (source : List Char) (store : Store) :
    (read source store).1 = match (operandsOf source).2 with
      | some e => .error e
      | none => .ok (build (pushOperands [] (operandsOf source).1 store).1
          (pushOperands [] (operandsOf source).1 store).2).1 := by
  rw [read_eq, finish]
  cases (operandsOf source).2 <;> rfl

theorem operandsOf_eq_some_iff {store : Store} :
    (operandsOf source).2 = some e ↔ (read source store).1 = .error e := by
  rw [fst_read]
  cases (operandsOf source).2 <;> simp

/-- A text is a formula exactly when its lexemes begin with a sum. -/
theorem exists_read_eq_ok_iff (source : List Char) (store : Store) :
    (∃ root, (read source store).1 = .ok root) ↔
      ∃ operands last, IsSum (lexemes source) operands last := by
  rw [← operandsOf_eq_iff, fst_read]
  cases (operandsOf source).2 <;> simp

/-- The error of a text is the first place at which its lexemes could not go on. -/
theorem read_eq_error_iff (source : List Char) (store : Store) (e : FormulaError) :
    (read source store).1 = .error e ↔ ∃ operands, Sums (lexemes source) operands ∧
      FailsAt (.ofRange (byteLength source) (byteLength source)) (lexemes source)
        (2 * operands.length) e := by
  rw [← operandsOf_eq_some_iff]
  constructor
  · intro h
    exact failsAt_of_scan (fun _ => proper_of_mem_lexemes) h
  · intro ⟨operands, hsums, hfails⟩
    exact scan_of_failsAt (fun _ => proper_of_mem_lexemes) hsums hfails

/-- Lexemes that are the same up to the one behind a sum begin with the same sum. -/
theorem IsSum.congr (h : IsSum ls operands last)
    (hsame : ∀ i ≤ 2 * operands.length + 1, rest[i]? = ls[i]?) : IsSum rest operands last := by
  refine ⟨⟨fun i o hi => ?_, fun i hi => ?_⟩, ?_, ?_⟩
  · have hlt := (List.getElem?_eq_some_iff.1 hi).1
    rw [hsame _ (by omega)]
    exact h.sums.operand i o hi
  · rw [hsame _ (by omega)]
    exact h.sums.plus i hi
  · rw [hsame _ (by omega)]
    exact h.last
  · rw [hsame _ (by omega)]
    exact h.ends

/-- Nothing behind the lexeme that ends a sum makes a difference. -/
theorem read_congr (h : IsSum (lexemes source) operands last)
    (hsame : ∀ i ≤ 2 * operands.length + 1, (lexemes source')[i]? = (lexemes source)[i]?)
    (store : Store) : read source' store = read source store := by
  have hscan : operandsOf source = (operands ++ [last], none) :=
    scan_of_isSum (fun _ => proper_of_mem_lexemes) h
  have hscan' : operandsOf source' = (operands ++ [last], none) :=
    scan_of_isSum (fun _ => proper_of_mem_lexemes) (h.congr hsame)
  rw [read_eq, read_eq, hscan, hscan']

/-- A text is a formula exactly when its lexemes begin with a sum, and else the first place at which
they could not go on is its error. The root of a formula is the sum of its operands, grouped to the
right, and nothing behind the lexeme that ends the sum makes a difference. -/
theorem read_language (source : List Char) (store : Store) :
    ((∃ root, (read source store).1 = .ok root) ↔
      ∃ operands last, IsSum (lexemes source) operands last) ∧
    (∀ e, (read source store).1 = .error e ↔ ∃ operands, Sums (lexemes source) operands ∧
      FailsAt (.ofRange (byteLength source) (byteLength source)) (lexemes source)
        (2 * operands.length) e) ∧
    ∀ operands last, IsSum (lexemes source) operands last →
      (store.size + (2 * operands.length + 1) < 2 ^ 32 →
        ∃ root store', read source store = (.ok root, store') ∧
          store'.size = store.size + (2 * operands.length + 1) ∧
          store'.tree? root = some (Tree.sum (operands ++ [last]))) ∧
      ∀ source', (∀ i ≤ 2 * operands.length + 1, (lexemes source')[i]? = (lexemes source)[i]?) →
        read source' store = read source store := by
  refine ⟨exists_read_eq_ok_iff source store, read_eq_error_iff source store,
    fun operands last hsum => ⟨fun hroom => ?_, fun source' hsame => read_congr hsum hsame store⟩⟩
  have hscan : operandsOf source = (operands ++ [last], none) :=
    scan_of_isSum (fun _ => proper_of_mem_lexemes) hsum
  obtain ⟨root, hroot⟩ := (exists_read_eq_ok_iff source store).2 ⟨operands, last, hsum⟩
  have hread : read source store = (.ok root, (read source store).2) := by rw [← hroot]
  have hsize : (read source store).2.size = store.size + (2 * operands.length + 1) := by
    rw [read_eq, hscan]
    simp only [finish, size_build, size_pushOperands, length_pushOperands, List.length_append,
      List.length_cons, List.length_nil]
    omega
  refine ⟨root, _, hread, hsize, ?_⟩
  have htree := (read_spec hread (by omega)).tree?_eq
  rwa [hscan] at htree

-- The word ends the sum, so the character behind it is never looked at.
example : (read "7 B0 $".toList .empty).1.toOption = some (.ofIndex 0) := by decide +kernel

end Read

end PipeSheet.Formula
