import GuidedTrack.Proofs.Expr.MovedReadings
import GuidedTrack.Proofs.Node.SpanNesting
import GuidedTrack.Proofs.Token.WrittenLines

/-! # Where expressions stand

The tree of an expression is nested well whenever its tokens stand in a row: the grammar joins only
what follows one another, and what a string literal embeds stands inside the literal.
-/

namespace GuidedTrack.Expr

open List

open Token (SolidChain Written)
open Node Int

variable {P : Position → Prop} {lo mid hi : Int} {next : Int} {piece cs : List Char} {index : Nat}
  {node : Node} {token : Token} {assignment : Bool} {value : Expr} {faults : List Fault}
  {parts : List Part} {ts : List Token} {strings : StringReader} {S : Token → Expr → Prop}

/-! ## Joining what stands in a row -/

theorem strung_headed {first : Node} {more : List Node} {stop : Position}
    (hfirst : Strung P lo mid [first]) (hle : mid ≤ next)
    (hmore : Strung P next stop.offset more) (hstop : P stop)
    (hchildren : node.children = first :: more) (hspan : node.span = ⟨first.span.start, stop⟩)
    (hhi : stop.offset ≤ hi) : Strung P lo hi [node] := by
  obtain ⟨hnested, hstart, hfilled, hbefore⟩ := hfirst.single
  have hafter := hmore.chained.le
  have hinside := hfirst.tight.append (hmore.widen (by omega) (Int.le_refl _))
  rw [singleton_append, ← hchildren] at hinside
  exact .wrap hspan hinside hnested.start hstop (by omega) hstart hhi

theorem strung_over {left right : Node} (hleft : Strung P lo mid [left]) (hle : mid ≤ next)
    (hright : Strung P next hi [right]) (hchildren : node.children = [left, right])
    (hspan : node.span = ⟨left.span.start, right.span.stop⟩) : Strung P lo hi [node] :=
  have hsingle := hright.single
  strung_headed hleft hle (hright.tight.widen hsingle.2.1 (Int.le_refl _)) hsingle.1.stop hchildren
    hspan hsingle.2.2.2

theorem strung_join {op : BinaryOp} {left right : Expr} (hleft : Strung P lo mid [.expr left])
    (hle : mid ≤ next) (hright : Strung P next hi [.expr right]) :
    Strung P lo hi [.expr (join op left right)] :=
  strung_over hleft hle hright rfl rfl

/-- A node over a token, or the end of one, that has nothing inside. -/
theorem strung_leaf {k : Nat} (h : token.Solid P piece) (hk : k < piece.length)
    (hlo : lo ≤ token.span.start.offset) (hhi : token.span.stop.offset ≤ hi)
    (hchildren : node.children = [])
    (hspan : node.span = ⟨token.span.start.advance k, token.span.stop⟩) :
    Strung P lo hi [node] := by
  have hstop : token.span.stop.offset = token.span.start.offset + piece.length := by
    rw [h.stop]
    rfl
  have hstart : (token.span.start.advance k).offset = token.span.start.offset + k := rfl
  refine .wrap hspan ?_ (h.places k (Nat.le_of_lt hk)) h.stop_place (by omega) (by omega) hhi
  rw [hchildren]
  exact .nil (by omega)

theorem strung_token (h : token.Solid P piece) (hlo : lo ≤ token.span.start.offset)
    (hchildren : node.children = []) (hspan : node.span = token.span) :
    Strung P lo token.span.stop.offset [node] :=
  strung_leaf h (length_pos_iff.mpr h.filled) hlo (Int.le_refl _) hchildren (by simp [hspan])

/-- Nodes in a row, and the token behind them. -/
theorem strung_closed {nodes : List Node}
    (h : ∃ mid, SolidChain P mid hi (token :: ts) ∧ Strung P lo mid nodes) :
    P token.span.stop ∧ Strung P lo token.span.stop.offset nodes ∧
      SolidChain P token.span.stop.offset hi ts := by
  obtain ⟨mid, hchain, hnodes⟩ := h
  obtain ⟨⟨piece, hsolid⟩, hstart, hfilled, hrest⟩ := hchain.uncons
  exact ⟨hsolid.stop_place, hnodes.widen (Int.le_refl _) (by omega), hrest⟩

/-! ## Phrases -/

/-- How a phrase stands between two offsets. A repetition goes on from the tree before it. -/
def Phrase.Strung (P : Position → Prop) (lo hi : Int) : (phrase : Phrase) → phrase.Value → Prop
  | tierTail _ _ left, value | sumTail left, value | productTail left, value
  | suffixTail left, value =>
    ∀ first, Node.Strung P first lo [.expr left] → Node.Strung P first hi [.expr value]
  | items _, values => Node.Strung P lo hi (values.map .expr)
  | entries, values => Node.Strung P lo hi (values.map .entry)
  | tiers _, value | sum, value | product, value | sign, value | suffixed, value
  | primary, value => Node.Strung P lo hi [.expr value]

def InPlace (P : Position → Prop) (S : Token → Expr → Prop) : Prop :=
  ∀ token piece value, token.kind = .string → token.Solid P piece → S token value →
    Strung P token.span.start.offset token.span.stop.offset [.expr value]

theorem strung_negated {raw : String} {number : Number} (h : token.Solid P piece)
    (hnegates : Negates token raw) (hread : Numeral.read raw = .ok number) :
    Strung P token.span.start.offset token.span.stop.offset
      [.expr (.literal ⟨token.span.start.advance 1, token.span.stop⟩ (.number number) raw)] := by
  have hspells : piece = token.text.toList := by
    simpa only [Token.Spells, hnegates.1] using h.spells
  have hraw : raw.toList ≠ [] := by
    intro hnil
    obtain rfl : raw = "" := String.toList_inj.mp hnil
    cases hread
  have hlength : 1 < piece.length := by
    rw [hspells, hnegates.2, length_cons]
    exact Nat.succ_lt_succ (length_pos_iff.mpr hraw)
  exact strung_leaf h hlength (Int.le_refl _) (Int.le_refl _) rfl rfl

/-- A phrase stands between the tokens it was derived from, and the tokens left over behind it. -/
theorem Derives.strung {phrase : Phrase} {rest : List Token} {value : phrase.Value}
    (h : Derives S phrase ts rest value) (hS : InPlace P S) (hts : SolidChain P lo hi ts) :
    ∃ mid, SolidChain P mid hi rest ∧ phrase.Strung P lo mid value := by
  induction h generalizing lo with
  | sum inner ih | unsigned inner ih | lastItem inner ih => exact ih hts
  | tier operand tail ih ihTail | terms operand tail ih ihTail | factors operand tail ih ihTail
  | suffixed inner tail ih ihTail =>
    obtain ⟨mid, hus, hfirst⟩ := ih hts
    obtain ⟨last, hrest, hvalue⟩ := ihTail hus
    exact ⟨last, hrest, hvalue lo hfirst⟩
  | tierStop | sumStop | productStop | suffixStop => exact ⟨lo, hts, fun first hleft => hleft⟩
  | tierStep mem spells operand tail ih ihTail | sumStep mem spells operand tail ih ihTail
  | productStep mem spells operand tail ih ihTail =>
    obtain ⟨-, hstart, hfilled, hmore⟩ := hts.uncons
    obtain ⟨mid, hus, hright⟩ := ih hmore
    obtain ⟨last, hrest, hvalue⟩ := ihTail hus
    exact ⟨last, hrest, fun first hleft =>
      hvalue first (strung_join hleft (by omega) hright)⟩
  | sumNegated negates read operand tail ih ihTail =>
    obtain ⟨⟨piece, hsolid⟩, hstart, hfilled, hmore⟩ := hts.uncons
    obtain ⟨mid, hus, hright⟩ := ih hmore
    obtain ⟨last, hrest, hvalue⟩ := ihTail hus
    exact ⟨last, hrest, fun first hleft =>
      hvalue first (strung_join hleft hstart (hright _ (strung_negated hsolid negates read)))⟩
  | signed spells operand ih =>
    obtain ⟨⟨piece, hsolid⟩, hstart, hfilled, hmore⟩ := hts.uncons
    obtain ⟨mid, hrest, hargument⟩ := ih hmore
    have hsingle := hargument.single
    refine ⟨mid, hrest, .wrap rfl ?_ hsolid.start_place hsingle.1.stop ?_ hstart hsingle.2.2.2⟩
    · exact hargument.tight.widen (by omega) (Int.le_refl _)
    · exact Int.lt_of_lt_of_le (by omega) (Int.le_of_lt hsingle.2.2.1)
  | call opens closes inner tail ih ihTail | index opens closes inner tail ih ihTail =>
    obtain ⟨-, hstart, hfilled, hmore⟩ := hts.uncons
    obtain ⟨hstop, hinside, hus⟩ := strung_closed (ih hmore)
    obtain ⟨last, hrest, hvalue⟩ := ihTail hus
    exact ⟨last, hrest, fun first hleft => hvalue first (strung_headed hleft (by omega) hinside
      hstop rfl rfl (Int.le_refl _))⟩
  | member opens names tail ihTail =>
    obtain ⟨-, hstart, hfilled, hname⟩ := hts.uncons
    obtain ⟨⟨piece, hsolid⟩, hnameStart, hfilled', hmore⟩ := hname.uncons
    obtain ⟨last, hrest, hvalue⟩ := ihTail hmore
    exact ⟨last, hrest, fun first hleft => hvalue first (strung_headed hleft (by omega)
      (strung_token hsolid (Int.le_refl _) rfl rfl) hsolid.stop_place rfl rfl (Int.le_refl _))⟩
  | number kind read | identifier kind =>
    obtain ⟨⟨piece, hsolid⟩, hstart, hfilled, hmore⟩ := hts.uncons
    exact ⟨_, hmore, strung_token hsolid hstart rfl rfl⟩
  | string kind stands =>
    obtain ⟨⟨piece, hsolid⟩, hstart, hfilled, hmore⟩ := hts.uncons
    exact ⟨_, hmore, (hS _ piece _ kind hsolid stands).widen hstart (Int.le_refl _)⟩
  | bracketed opens closes inner ih =>
    obtain ⟨-, hstart, hfilled, hmore⟩ := hts.uncons
    obtain ⟨-, hinside, hrest⟩ := strung_closed (ih hmore)
    exact ⟨_, hrest, hinside.widen (by omega) (Int.le_refl _)⟩
  | array opens closes inner ih | object opens closes inner ih =>
    obtain ⟨⟨piece, hsolid⟩, hstart, hfilled, hmore⟩ := hts.uncons
    obtain ⟨hstop, hinside, hrest⟩ := strung_closed (ih hmore)
    have hle := hinside.chained.le
    exact ⟨_, hrest, .wrap rfl (hinside.widen (by omega) (Int.le_refl _)) hsolid.start_place hstop
      (by omega) hstart (Int.le_refl _)⟩
  | noItems | noEntries => exact ⟨lo, hts, .nil (Int.le_refl _)⟩
  | moreItems inner divides more ih ihMore =>
    obtain ⟨-, hitem, hus⟩ := strung_closed (ih hts)
    obtain ⟨last, hrest, hitems⟩ := ihMore hus
    exact ⟨last, hrest, hitem.append hitems⟩
  | lastEntry left points right ihLeft ihRight =>
    obtain ⟨-, hkey, hus⟩ := strung_closed (ihLeft hts)
    obtain ⟨last, hrest, hvalue⟩ := ihRight hus
    exact ⟨last, hrest, strung_over hkey (Int.le_refl _) hvalue rfl rfl⟩
  | moreEntries left points right divides more ihLeft ihRight ihMore =>
    obtain ⟨-, hkey, hus⟩ := strung_closed (ihLeft hts)
    obtain ⟨-, hvalue, hvs⟩ := strung_closed (ihRight hus)
    obtain ⟨last, hrest, hentries⟩ := ihMore hvs
    exact ⟨last, hrest, (strung_over hkey (Int.le_refl _) hvalue rfl rfl).append hentries⟩

theorem Whole.strung (h : Whole S assignment ts value) (hS : InPlace P S)
    (hts : SolidChain P lo hi ts) :
    Strung P lo hi [.expr value] := by
  have hderives {ts : List Token} {lo : Int} {value : Expr} (hts : SolidChain P lo hi ts)
      (h : Derives S .whole ts [] value) : Strung P lo hi [.expr value] := by
    obtain ⟨mid, hrest, hvalue⟩ := h.strung hS hts
    exact hvalue.widen (Int.le_refl _) hrest.chained.le
  cases assignment with
  | false => exact hderives hts h
  | true =>
    rcases h with ⟨target, token, us, source, htarget, -, hsource, rfl⟩ | ⟨-, hwhole⟩
    · obtain ⟨mid, hequals, hleft⟩ := htarget.strung hS hts
      obtain ⟨-, hstart, hfilled, hus⟩ := hequals.uncons
      exact strung_join hleft (by omega) (hderives hus hsource)
    · exact hderives hts hwhole

/-! ## String literals -/

def Embeds (P : Position → Prop) (token : Token) (pieces : List Piece) : Prop :=
  ∀ place content, Piece.braced place content ∈ pieces →
    Written P (token.span.start.advance (place + 1)) content (embedded token place content)

theorem embeds_pieces (h : token.Solid P piece) (hkind : token.kind = .string) :
    Embeds P token (pieces 0 (unquoted token.text)) := by
  have hspells : piece = token.text.toList := by
    simpa only [Token.Spells, hkind] using h.spells
  have hlength : (unquoted token.text).length = piece.length - 1 - 1 := by
    rw [hspells, unquoted, length_dropLast, length_tail]
  have hpositive := length_pos_iff.mpr h.filled
  have hinline : Source.Inline (unquoted token.text) := by
    intro c hc
    refine h.inline c ?_
    rw [hspells]
    exact mem_of_mem_tail (dropLast_subset _ hc)
  intro place content hmem
  obtain ⟨before, after, hcut, rfl⟩ := (outermost_pieces _ _).split hmem
  rw [hcut, length_append, length_cons, length_append] at hlength
  simp only [hcut, forall_mem_append, forall_mem_cons] at hinline
  rw [embedded, Token.dropLast_ofExpression hinline.2.2.1]
  refine Token.written_scanExpression hinline.2.2.1 fun k hk => ?_
  rw [Position.advance_advance]
  exact h.places _ (by omega)

theorem readPieces_textPiece {list : List Piece}
    (h : readPieces strings token (textPiece content ++ list) = .ok (parts, faults)) :
    ∃ others, readPieces strings token list = .ok (others, faults) ∧
      ofParts parts = ofParts others := by
  unfold textPiece at h
  split at h
  · exact ⟨parts, h, rfl⟩
  · rw [singleton_append, readPieces] at h
    obtain ⟨⟨others, more⟩, hrest, hresult⟩ := exists_of_bind_eq_ok h
    cases hresult
    exact ⟨others, hrest, rfl⟩

/-- What is embedded in a literal stands in a row inside it: the content from `index` on is `cs`. -/
theorem strung_readPieces {pieces : List Piece} (hpieces : Outermost index cs pieces)
    (hstrings : InPlace P (Stands strings fun _ => True))
    (hread : readPieces strings token pieces = .ok (parts, faults))
    (hembeds : Embeds P token pieces) :
    Strung P (token.span.start.offset + (index + 1))
      (token.span.start.offset + (index + 1) + cs.length) (ofParts parts) := by
  induction hpieces generalizing parts faults with
  | text none | unbalanced first none =>
    rw [← append_nil (textPiece _)] at hread
    obtain ⟨others, hothers, heq⟩ := readPieces_textPiece hread
    cases hothers
    rw [heq]
    exact .nil (by omega)
  | @pair index before content rest pieces first balanced more ih =>
    obtain ⟨some, hsome, heq⟩ := readPieces_textPiece hread
    rw [heq]
    rw [readPieces] at hsome
    obtain ⟨⟨value?, _⟩, hvalue, hsome⟩ := exists_of_bind_eq_ok hsome
    obtain ⟨⟨others, _⟩, hrest, hresult⟩ := exists_of_bind_eq_ok hsome
    cases hresult
    have hchain := (hembeds _ content (mem_append_right _ mem_cons_self)).solidChain
    have hlater : Strung P
        (token.span.start.offset + (index + before.length + 1 + 1) + content.length)
        (token.span.start.offset + (index + 1) +
          (before ++ '{' :: (content ++ '}' :: rest)).length) (ofParts others) := by
      refine (ih hrest fun place content hmem => hembeds place content (by simp [hmem])).widen
        (by omega) ?_
      simp only [length_append, length_cons]
      omega
    rcases whole_of_ofTokensWith (p := fun _ => True) hvalue (fun _ _ => trivial) with
      ⟨value, rfl, hwhole⟩ | ⟨rfl, -⟩
    · have hfirst := hwhole.strung hstrings (hchain.sublist filter_sublist)
      have horigin : (token.span.start.advance (index + before.length + 1 + 1)).offset =
          token.span.start.offset + (index + before.length + 1 + 1) := rfl
      rw [horigin] at hfirst
      exact (hfirst.widen (by omega) (Int.le_refl _)).append hlater
    · exact hlater.widen (by omega) (Int.le_refl _)

theorem inPlace_readString (depth : Nat) :
    InPlace P (Stands (readString depth) fun _ => True) := by
  have hplain {token : Token} {piece : List Char} (hsolid : token.Solid P piece) (value : Literal) :
      Strung P token.span.start.offset token.span.stop.offset
        [.expr (.literal token.span value token.text)] :=
    strung_leaf hsolid (length_pos_iff.mpr hsolid.filled) (Int.le_refl _) (Int.le_refl _) rfl
      (by simp; rfl)
  induction depth with
  | zero =>
    rintro token piece value hkind hsolid ⟨faults, hread, -⟩
    cases hread
    exact hplain hsolid _
  | succ depth ih =>
    rintro token piece value hkind hsolid ⟨faults, hread, -⟩
    by_cases hbrace : '{' ∈ unquoted token.text
    · rw [readString, if_pos (contains_iff_mem.mpr hbrace)] at hread
      obtain ⟨⟨parts, _⟩, hparts, hresult⟩ := exists_of_bind_eq_ok hread
      cases hresult
      have hspells : piece = token.text.toList := by
        simpa only [Token.Spells, hkind] using hsolid.spells
      have hpositive := length_pos_of_mem hbrace
      have hlength : (unquoted token.text).length = piece.length - 1 - 1 := by
        rw [hspells, unquoted, length_dropLast, length_tail]
      have hinside := strung_readPieces (outermost_pieces 0 (unquoted token.text)) ih hparts
        (embeds_pieces hsolid hkind)
      have hstop : token.span.stop.offset = token.span.start.offset + piece.length := by
        rw [hsolid.stop]
        rfl
      have hchildren : Strung P token.span.start.offset token.span.stop.offset
          (expr (.interpolated token.span parts)).children :=
        hinside.widen (by omega) (by omega)
      have hfilled : token.span.start.offset < token.span.stop.offset := by omega
      exact .wrap rfl hchildren hsolid.start_place hsolid.stop_place hfilled (Int.le_refl _)
        (Int.le_refl _)
    · rw [readString_plain hbrace] at hread
      cases hread
      exact hplain hsolid _

theorem strung_ofTokens {anchor : Position} {tokens : List Token}
    (h : ofTokens assignment anchor tokens = .ok (some value, faults))
    (htokens : SolidChain P lo hi tokens) : Strung P lo hi [.expr value] := by
  rcases whole_of_ofTokensWith (p := fun _ => True) h (fun _ _ => trivial) with
    ⟨_, ⟨⟩, hwhole⟩ | ⟨hnone, -⟩
  · exact hwhole.strung (inPlace_readString _) (htokens.sublist filter_sublist)
  · cases hnone

end GuidedTrack.Expr
