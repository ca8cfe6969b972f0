import PipeSheet.Command.Basic
import PipeSheet.Proofs.Evaluation.Meaning
import PipeSheet.Proofs.Sheet.Rendering
/-!
# PipeSheet.Proofs.Evaluation.FixedPoint

**What the program writes, it reads and writes again.**

The text of an evaluated grid is a table without formulas. Its texts are those of the grid, an empty
place becomes an empty text, and a number becomes one with the same text, which need not be the same
number. So evaluating the text gives a grid with that text.

* `exists_read_of_unmarked`: a source without formulas reads;
* `Table.ReadsAs.fits`: the values of an evaluated source fit into cells;
* `Table.ReadsBack`, `Grid.Fits.readsBack`: the table of the text of a grid;
* `evaluateSource_render`: the law.
-/

namespace PipeSheet

open Formula (Store)
open Text (Piece byteLength)

variable {source : List Char} {store : Store} {t : Table} {g : Grid} {n : Nat}

/-! ### Sources without formulas -/

/-- A piece is marked when it holds a formula. -/
def Marked (piece : Piece) : Prop :=
  (Text.trim piece.text).head? = some formulaMark

theorem exists_readCell_of_not_marked {piece : Piece} (h : ¬ Marked piece) (store : Store) :
    ∃ cell, Cell.read piece store = (.ok cell, store) := by
  unfold Marked at h
  unfold Cell.read
  dsimp only
  rw [if_neg h]
  split
  · exact ⟨_, rfl⟩
  · exact ⟨_, rfl⟩

theorem exists_readCells_of_not_marked {slots : List (Position × Option Piece)}
    (h : ∀ p piece, (p, some piece) ∈ slots → ¬ Marked piece) (before : Array Cell)
    (store : Store) :
    ∃ cells, readCells before slots store = (.ok cells, store) := by
  induction slots generalizing before with
  | nil => exact ⟨before, rfl⟩
  | cons slot rest ih =>
      have hrest := ih fun p piece hmem => h p piece (List.mem_cons_of_mem _ hmem)
      obtain ⟨p, _ | piece⟩ := slot
      · exact hrest _
      · obtain ⟨cell, hcell⟩ := exists_readCell_of_not_marked (h p piece List.mem_cons_self) store
        rw [readCells, hcell]
        exact hrest _

theorem exists_mem_pieceRows {p : Position} {piece : Piece} (h : (p, some piece) ∈ slots source) :
    ∃ row ∈ pieceRows source, piece ∈ row := by
  obtain ⟨⟨row, r⟩, hrow, hslot⟩ := List.mem_flatMap.1 h
  obtain ⟨⟨piece?, c⟩, hpiece, heq⟩ := List.mem_map.1 hslot
  obtain ⟨-, rfl⟩ := Prod.mk.inj heq
  refine ⟨row, List.fst_mem_of_mem_zipIdx hrow, ?_⟩
  have hfill := List.fst_mem_of_mem_zipIdx hpiece
  rw [fillUp, List.mem_append] at hfill
  rcases hfill with hfill | hfill
  · simpa using hfill
  · exact absurd (List.eq_of_mem_replicate hfill) (by simp)

/-- A source without formulas reads, and the store stays as it is. -/
theorem exists_read_of_unmarked (h : ∀ row ∈ pieceRows source, ∀ piece ∈ row, ¬ Marked piece)
    (store : Store) : ∃ t, Table.read source store = (.ok t, store) := by
  have hslots : ∀ p piece, (p, some piece) ∈ slots source → ¬ Marked piece := by
    intro p piece hmem
    obtain ⟨row, hrow, hpiece⟩ := exists_mem_pieceRows hmem
    exact h row hrow piece hpiece
  obtain ⟨cells, hcells⟩ := exists_readCells_of_not_marked hslots #[] store
  unfold Table.read
  split
  · next heq =>
    rw [hcells] at heq
    cases heq
  · next heq =>
    rw [hcells] at heq
    cases heq
    exact ⟨_, rfl⟩

/-! ### The values of a source -/

/-- A piece contains neither separator. -/
theorem not_mem_of_pieceAt? {p : Position} {piece : Piece} (h : pieceAt? source p = some piece) :
    cellSeparator ∉ piece.text ∧ '\n' ∉ piece.text := by
  obtain ⟨row, hrow, hpiece⟩ := Option.bind_eq_some_iff.1 h
  obtain ⟨line, hline, rfl⟩ := List.mem_map.1 (List.mem_of_getElem? hrow)
  have hpiece := List.mem_of_getElem? hpiece
  have htext := List.mem_map_of_mem (f := Piece.text) hpiece
  have hlineText := List.mem_map_of_mem (f := Piece.text) hline
  rw [Text.map_text_locate] at htext hlineText
  refine ⟨Text.not_mem_of_mem_pieces htext, fun hmem => ?_⟩
  obtain ⟨before, after, hwithin, _⟩ := Text.within_of_mem_locate_pieces (by decide) hpiece
  refine Text.not_mem_of_mem_pieces ((Text.lines_prefix source).mem hlineText) ?_
  rw [hwithin]
  simp [hmem]

/-- The values of a source that was evaluated fit into cells. -/
theorem Table.ReadsAs.fits (hreads : t.ReadsAs source store) (h : t.SolvedBy store g) : g.Fits := by
  refine ⟨fun {p v} hp content hv => ?_, fun hrows => ?_, fun hrows => ?_⟩
  · subst hv
    have hinside : t.Contains p := by
      by_cases hp' : p.row < g.rows ∧ p.col < g.cols
      · exact ⟨h.rows_eq ▸ hp'.1, h.cols_eq ▸ hp'.2⟩
      · rw [Grid.get?, if_neg hp'] at hp
        cases hp
    obtain ⟨cell, hcell⟩ : ∃ cell, t.get? p = some cell := ⟨_, by rw [Table.get?, dif_pos hinside]⟩
    cases cell with
    | empty =>
        rw [h.empty hcell] at hp
        cases hp
    | number value =>
        rw [h.number hcell] at hp
        cases hp
    | formula f =>
        obtain ⟨_, _, _, _, hvalue⟩ := h.formula hcell
        rw [hvalue] at hp
        cases hp
    | text span content' =>
        rw [(h.text hcell).1] at hp
        cases hp
        have hwritten := hreads.written hcell
        cases hpiece : pieceAt? source p with
        | none =>
            rw [hpiece] at hwritten
            cases hwritten
        | some piece =>
            rw [hpiece] at hwritten
            cases hwritten with
            | text hmark hvalue =>
                obtain ⟨hseparator, hend⟩ := not_mem_of_pieceAt? hpiece
                exact ⟨⟨Text.trim_trim _, fun hmem => hseparator (Text.mem_of_mem_trim hmem),
                  fun hmem => hend (Text.mem_of_mem_trim hmem), hmark⟩, hvalue⟩
  · rw [h.rows_eq, hreads.rows_eq, List.length_eq_zero_iff] at hrows
    rw [h.cols_eq, hreads.cols_eq, hrows]
    rfl
  · rw [h.rows_eq, hreads.rows_eq] at hrows
    rw [h.cols_eq, hreads.cols_eq]
    exact width_pieceRows_pos hrows

/-! ### Reading back -/

/-- What the text of a grid is read as: texts for its texts and its empty places, and for its
numbers numbers with the same text. -/
structure Table.ReadsBack (n : Nat) (t : Table) (g : Grid) : Prop where
  rows_eq : t.rows = g.rows
  cols_eq : t.cols = g.cols
  not_formula : ∀ p f, t.get? p ≠ some (.formula f)
  not_empty : ∀ p, t.get? p ≠ some .empty
  text : ∀ {p : Position} {content : List Char}, g.get? p = some (.text content) →
    ∃ span, t.get? p = some (.text span content) ∧ t.text? span = some content
  empty : ∀ {p : Position}, g.get? p = some .empty →
    ∃ span, t.get? p = some (.text span []) ∧ t.text? span = some []
  number : ∀ {p : Position} {value : Float}, g.get? p = some (.number value) →
    ∃ value', t.get? p = some (.number value') ∧ Number.fixed n value' = Number.fixed n value

/-- What is read of the text of a value. -/
inductive Value.BecomesCell (n : Nat) : Value → Cell → Prop
  | empty (span : Span) : BecomesCell n .empty (.text span [])
  | text (span : Span) (content : List Char) : BecomesCell n (.text content) (.text span content)
  | number (value value' : Float) : Number.fixed n value' = Number.fixed n value →
      BecomesCell n (.number value) (.number value')

theorem Value.Fits.becomesCell {v : Value} (hv : v.Fits) {piece : Piece} {cell : Cell}
    (htext : piece.text = v.render n) (h : Written store (some piece) cell) :
    v.BecomesCell n cell := by
  have hfits := hv.render n
  have htrim : Text.trim piece.text = v.render n := by rw [htext, hfits.trim_eq]
  cases h with
  | formula hmark _ =>
      rw [htrim] at hmark
      exact absurd hmark hfits.not_marked
  | number _ hvalue =>
      rw [htrim] at hvalue
      cases v with
      | empty =>
          have hnone : Number.read? [] = none := by decide
          rw [Value.render, hnone] at hvalue
          cases hvalue
      | text content =>
          rw [Value.render, (hv content rfl).2] at hvalue
          cases hvalue
      | number x =>
          obtain ⟨y, hy, hsame⟩ := Number.read?_fixed n x
          rw [Value.render, hy] at hvalue
          cases hvalue
          exact .number _ _ hsame
  | text _ hvalue =>
      rw [htrim] at hvalue ⊢
      cases v with
      | empty => exact .empty _
      | text content => exact .text _ _
      | number x =>
          obtain ⟨y, hy, _⟩ := Number.read?_fixed n x
          rw [Value.render, hy] at hvalue
          cases hvalue

namespace Grid.Fits

theorem exists_read (hg : g.Fits) (n : Nat) (store : Store) :
    ∃ t, Table.read (g.render n) store = (.ok t, store) := by
  refine exists_read_of_unmarked (fun row hrow piece hpiece => ?_) store
  have htexts := hg.map_text_pieceRows n
  have hmem : row.map Piece.text ∈ g.toRows.map (List.map (Value.render n)) :=
    htexts ▸ List.mem_map_of_mem hrow
  obtain ⟨values, hvalues, heq⟩ := List.mem_map.1 hmem
  obtain ⟨v, hv, htext⟩ := List.mem_map.1 (heq ▸ List.mem_map_of_mem hpiece)
  obtain ⟨r, hr, rfl⟩ := Grid.exists_of_mem_toRows hvalues
  obtain ⟨p, hp⟩ := Grid.exists_of_mem_row hr hv
  have hfits := (hg.values hp).render n
  rw [Marked, ← htext, hfits.trim_eq]
  exact hfits.not_marked

/-- In every place the table of the text has what the value there becomes. -/
theorem becomesCell (hg : g.Fits) (hreads : t.ReadsAs (g.render n) store) {p : Position} {v : Value}
    (hp : g.get? p = some v) : ∃ cell, t.get? p = some cell ∧ v.BecomesCell n cell := by
  have hinside : t.Contains p := by
    rw [Table.Contains, hreads.rows_eq, hreads.cols_eq, hg.rows_render, hg.cols_render]
    by_cases hp' : p.row < g.rows ∧ p.col < g.cols
    · exact hp'
    · rw [Grid.get?, if_neg hp'] at hp
      cases hp
  obtain ⟨cell, hcell⟩ : ∃ cell, t.get? p = some cell := ⟨_, by rw [Table.get?, dif_pos hinside]⟩
  have htext := hg.text_pieceAt?_render n p
  have hwritten := hreads.written hcell
  rw [hp, Option.map_some] at htext
  obtain ⟨piece, hpiece, htext⟩ := Option.map_eq_some_iff.1 htext
  rw [hpiece] at hwritten
  exact ⟨cell, hcell, (hg.values hp).becomesCell htext hwritten⟩

theorem exists_becomesCell (hg : g.Fits) (hreads : t.ReadsAs (g.render n) store) {p : Position}
    {cell : Cell} (hcell : t.get? p = some cell) :
    ∃ v, g.get? p = some v ∧ v.BecomesCell n cell := by
  have hinside := Table.contains_of_get? hcell
  rw [Table.Contains, hreads.rows_eq, hreads.cols_eq, hg.rows_render, hg.cols_render] at hinside
  obtain ⟨v, hv⟩ := Grid.exists_get? hinside.1 hinside.2
  obtain ⟨cell', hcell', hbecomes⟩ := hg.becomesCell hreads hv
  rw [hcell] at hcell'
  cases hcell'
  exact ⟨v, hv, hbecomes⟩

theorem readsBack (hg : g.Fits) (hreads : t.ReadsAs (g.render n) store)
    (hsize : byteLength (g.render n) < 2 ^ 32) : t.ReadsBack n g where
  rows_eq := by rw [hreads.rows_eq, hg.rows_render]
  cols_eq := by rw [hreads.cols_eq, hg.cols_render]
  not_formula p f hp := by
    obtain ⟨_, _, hbecomes⟩ := hg.exists_becomesCell hreads hp
    cases hbecomes
  not_empty p hp := by
    obtain ⟨_, _, hbecomes⟩ := hg.exists_becomesCell hreads hp
    cases hbecomes
  text hp := by
    obtain ⟨_, hcell, hbecomes⟩ := hg.becomesCell hreads hp
    cases hbecomes with
    | text span _ =>
        obtain ⟨_, _, _, hspan⟩ := hreads.text hsize hcell
        exact ⟨span, hcell, hspan⟩
  empty hp := by
    obtain ⟨_, hcell, hbecomes⟩ := hg.becomesCell hreads hp
    cases hbecomes with
    | empty span =>
        obtain ⟨_, _, _, hspan⟩ := hreads.text hsize hcell
        exact ⟨span, hcell, hspan⟩
  number hp := by
    obtain ⟨_, hcell, hbecomes⟩ := hg.becomesCell hreads hp
    cases hbecomes with
    | number _ value' hsame => exact ⟨value', hcell, hsame⟩

end Grid.Fits

/-- A table without formulas solves to its own cells, so its grid has the text that was read. -/
theorem Table.ReadsBack.render_eq {g' : Grid} (h : t.ReadsBack n g)
    (hsolved : t.SolvedBy store g') :
    g'.render n = g.render n := by
  refine Grid.render_congr (hsolved.rows_eq.trans h.rows_eq) (hsolved.cols_eq.trans h.cols_eq)
    fun p => ?_
  cases hp : g.get? p with
  | none =>
      have hp' : g'.get? p = none := by
        have houtside : ¬ (p.row < g.rows ∧ p.col < g.cols) := fun hinside => by
          obtain ⟨v, hv⟩ := Grid.exists_get? hinside.1 hinside.2
          rw [hp] at hv
          cases hv
        rw [Grid.get?, hsolved.rows_eq, hsolved.cols_eq, h.rows_eq, h.cols_eq, if_neg houtside]
      rw [hp']
  | some v =>
      cases v with
      | empty =>
          obtain ⟨_, hcell, _⟩ := h.empty hp
          rw [(hsolved.text hcell).1]
          rfl
      | text content =>
          obtain ⟨_, hcell, _⟩ := h.text hp
          rw [(hsolved.text hcell).1]
      | number value =>
          obtain ⟨value', hcell, hsame⟩ := h.number hp
          rw [hsolved.number hcell]
          exact congrArg some hsame

/-! ### The program -/

/-- The text of an evaluated source is read back, place by place, and evaluating it gives a grid
with that same text. -/
theorem evaluateSource_render {source : List Char} {g : Grid} {stats : Stats} (precision : Nat)
    (hsource : byteLength source < 2 ^ 32) (h : evaluateSource source = .ok (g, stats))
    (hsize : byteLength (g.render precision) < 2 ^ 32) :
    (∃ t store, Table.read (g.render precision) .empty = (.ok t, store) ∧ t.ReadsBack precision g) ∧
    ∃ g' stats', evaluateSource (g.render precision) = .ok (g', stats') ∧
      g'.render precision = g.render precision := by
  obtain ⟨t, store, e, t', hread, hcall, _⟩ := evaluateSource_eq_ok_iff.1 h
  have hreads := Table.readsAs_of_read hread (by simpa using Nat.le_of_lt hsource)
  have hsolved : t.SolvedBy store g :=
    hreads.solvedBy hsource
      ((evaluateTable_eq_ok_iff hreads.atRest {} g).1 (congrArg Prod.fst hcall))
  have hfits := hreads.fits hsolved
  obtain ⟨back, hback⟩ := hfits.exists_read precision .empty
  have hreads' := Table.readsAs_of_read hback (by simpa using Nat.le_of_lt hsize)
  have hreadsBack := hfits.readsBack hreads' hsize
  have hsolvable : (back.sheet .empty).Solvable := by
    rintro p ⟨tree, htree⟩
    rw [Table.at?_sheet] at htree
    obtain ⟨cell, hcell, hcontent⟩ := Option.map_eq_some_iff.1 htree
    cases cell with
    | formula f => exact absurd hcell (hreadsBack.not_formula p f)
    | _ => cases hcontent
  obtain ⟨g', hg'⟩ := (exists_evaluateTable_eq_ok_iff hreads'.atRest {}).2 hsolvable
  have hsolved' := hreads'.solvedBy hsize ((evaluateTable_eq_ok_iff hreads'.atRest {} g').1 hg')
  refine ⟨⟨back, .empty, hback, hreadsBack⟩, g', _, evaluateSource_eq_ok_iff.2
    ⟨back, .empty, _, _, hback, Prod.ext hg' rfl, rfl⟩, hreadsBack.render_eq hsolved'⟩

theorem evaluateSource_render_of_sum :
    ∃ g stats, evaluateSource " x |=C0+1|1.125\n5".toList = .ok (g, stats) ∧
      byteLength (g.render 2) < 2 ^ 32 ∧
      (∃ t store, Table.read (g.render 2) .empty = (.ok t, store) ∧ t.ReadsBack 2 g) ∧
      ∃ g' stats', evaluateSource (g.render 2) = .ok (g', stats') ∧ g'.render 2 = g.render 2 := by
  have hcheck : (match evaluateSource " x |=C0+1|1.125\n5".toList with
      | .ok (g, _) => decide (byteLength (g.render 2) < 2 ^ 32)
      | .error _ => false) = true := by decide +kernel
  split at hcheck
  · next g stats heq =>
    have hsize := of_decide_eq_true hcheck
    exact ⟨g, stats, heq, hsize, evaluateSource_render 2 (by decide) heq hsize⟩
  · cases hcheck

end PipeSheet
