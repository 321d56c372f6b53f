import GuidedTrack.Proofs.Rule.MendedLines

/-! # What fixes insert into a line

Whatever stands in a line, the fixes of its strings and brackets insert quotes and closing brackets
at one place of it. Where only some of the fixes are made, they insert less at the same place.
-/

namespace GuidedTrack

open List Token

theorem Token.Row.exists_stop {p : Position} {cs : List Char} {tokens : List Token}
    (h : Row p cs tokens) {token : Token} (htoken : token ∈ tokens) :
    ∃ front tail, cs = front ++ tail ∧ token.span.stop = p.advance front.length := by
  induction h with
  | nil => cases htoken
  | @blank p c cs tokens hblank rest ih =>
    obtain ⟨front, tail, rfl, hstop⟩ := ih htoken
    refine ⟨c :: front, tail, rfl, ?_⟩
    rw [hstop, Position.advance_advance, length_cons, Nat.add_comm]
  | @token p first piece cs tokens span spells filled kind rest ih =>
    rcases mem_cons.mp htoken with rfl | htoken
    · exact ⟨piece, cs, rfl, by rw [span]⟩
    · obtain ⟨front, tail, rfl, hstop⟩ := ih htoken
      refine ⟨piece ++ front, tail, (append_assoc ..).symm, ?_⟩
      rw [hstop, Position.advance_advance, length_append]
  | @mark p kind cs tokens empty rest ih =>
    rcases mem_cons.mp htoken with rfl | htoken
    · exact ⟨[], cs, rfl, rfl⟩
    · exact ih htoken

namespace Rule

open Token (Kind Spread)

def closingMarks : List Char :=
  ['"', '\'', ')', ']', '}']

theorem closingMarks_of_isQuote {quote : Char} (h : isQuote quote = true) :
    quote ∈ closingMarks := by
  have hquote : quote = '"' ∨ quote = '\'' := by simpa [isQuote] using h
  rcases hquote with rfl | rfl <;> decide

theorem closingMarks_of_mem_closers {openers : List Kind} {c : Char} (h : c ∈ closers openers) :
    c ∈ closingMarks := by
  rcases mem_closers h with rfl | rfl | rfl <;> decide

/-- The brackets of a line whose strings are closed are closed behind one of its tokens. -/
theorem exists_inserts_spread {p : Position} {body : List Char} {kinds : List Kind}
    {row : List Token} (hspread : Spread p body kinds row) (hrow : Row p body row)
    (lineEnd : Int) :
    ∃ front added tail, body = front ++ tail ∧ (∀ c ∈ added, c ∈ closingMarks) ∧
      Inserts p.line (p.offset + front.length) p.column added (rowReports lineEnd row) := by
  have hreports : rowReports lineEnd row =
      (closing? (row.foldl afterToken []) (row.foldl endAfter lineEnd)).toList := by
    rw [rowReports, filterMap_unclosedString? hspread.closed, append_nil]
  rw [hreports]
  cases hlast : row.getLast? with
  | none =>
    rw [getLast?_eq_none_iff.mp hlast]
    exact ⟨body, [], [], (append_nil body).symm, by simp, .nil⟩
  | some last =>
    have hmem := mem_of_getLast? hlast
    obtain ⟨front, tail, rfl, hstop⟩ := hrow.exists_stop hmem
    have hend : row.foldl endAfter lineEnd = p.offset + front.length := by
      obtain ⟨init, rfl⟩ := getLast?_eq_some_iff.mp hlast
      have hkind := (hspread.inner last hmem).2
      rw [foldl_append, foldl_cons, foldl_nil, endAfter, if_neg hkind, hstop]
      rfl
    have hinserts := @inserts_closing p _ kinds row [] hspread (by simp)
      (p.offset + front.length) [] [] .nil
    rw [append_nil, append_nil, append_nil] at hinserts
    exact ⟨front, _, tail, rfl, fun c hc => closingMarks_of_mem_closers hc, by rwa [hend]⟩

/-- The fixes of any line insert closing marks at one place of it. -/
theorem exists_inserts {body : List Char} (hbody : body ≠ []) (depth : Nat) (lineEnd : Int)
    (p : Position) :
    ∃ front added tail, body = front ++ tail ∧ (∀ c ∈ added, c ∈ closingMarks) ∧
      Inserts p.line (p.offset + front.length) p.column added
        (rowReports lineEnd (scanContent depth p body)) := by
  cases ending_exists hbody with
  | @comment cs =>
    have hshuts : Shuts [] (scanContent depth p ('-' :: '-' :: cs)) :=
      .comments (by simp [scanContent, comment, covering])
    rw [rowReports_of_shuts hshuts]
    exact ⟨_, [], [], (append_nil _).symm, by simp, .nil⟩
  | @string quote cs hquote hcs =>
    have hmends := mends_quoted hquote hcs
    refine ⟨quote :: cs, [quote], [], (append_nil _).symm, ?_, ?_⟩
    · simpa using closingMarks_of_isQuote hquote
    · simpa using hmends.inserts depth lineEnd p
  | @closed _ kinds hweaves hspread =>
    obtain ⟨heads, -, hscan⟩ := hspread depth
    exact exists_inserts_spread (hscan p) (row_scanContent depth p body) lineEnd
  | @inside inside front tail kinds hends =>
    rcases hends.trails.cases with hquiet | ⟨gaps, quote, cs, rfl, hgaps, hquote, hcs⟩
    · exact ⟨front, _, tail, rfl, fun c hc => closingMarks_of_mem_closers hc,
        (mends_endsIn hends hquiet).inserts depth lineEnd p⟩
    · have hmends := mends_endsIn_string hends hgaps hquote hcs
      refine ⟨_, closers (openAfter [] kinds) ++ [quote], [], (append_nil _).symm, ?_, ?_⟩
      · intro c hc
        rcases mem_append.mp hc with hc | hc
        · exact closingMarks_of_mem_closers hc
        · rw [mem_singleton.mp hc]
          exact closingMarks_of_isQuote hquote
      · simpa using hmends.inserts depth lineEnd p

theorem Inserts.sublist {line place column : Int} {added : List Char} {reports others : List Report}
    (h : Inserts line place column added reports) (hsub : others.Sublist reports) :
    ∃ fewer, fewer.Sublist added ∧ Inserts line place column fewer others := by
  induction h generalizing others with
  | nil =>
    rw [sublist_nil.mp hsub]
    exact ⟨[], .slnil, .nil⟩
  | @cons column text added report reports sameLine behind fix rest ih =>
    cases hsub with
    | cons _ hsub =>
      obtain ⟨less, hless, hinserts⟩ := ih hsub
      exact ⟨less, hless.trans (sublist_append_right text added),
        hinserts.weaken (by omega)⟩
    | cons_cons _ hsub =>
      obtain ⟨less, hless, hinserts⟩ := ih hsub
      exact ⟨text ++ less, hless.append_left text, .cons sameLine behind fix hinserts⟩

end Rule
end GuidedTrack
