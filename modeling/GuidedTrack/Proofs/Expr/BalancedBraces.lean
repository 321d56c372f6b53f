import GuidedTrack.Expr.Strings
import Mathlib.Data.List.TakeWhile

/-! # Braces in string literals

The content of a literal is cut at its outermost balanced pairs of braces, and an unbalanced rest is
text. What stands between two such braces is a stretch of the content, at the place that the cut
tells.
-/

namespace GuidedTrack.Expr

open List

variable {depth n : Nat} {content rest cs : List Char}

/-! ## Balanced braces -/

inductive Balanced : List Char → Prop where
  | nil : Balanced []
  | plain {c : Char} {rest : List Char} (notOpen : c ≠ '{') (notClose : c ≠ '}')
      (more : Balanced rest) : Balanced (c :: rest)
  | pair {inner rest : List Char} (inside : Balanced inner) (more : Balanced rest) :
      Balanced ('{' :: (inner ++ '}' :: rest))

inductive Closes : Nat → List Char → Prop where
  | level {cs : List Char} (level : Balanced cs) : Closes 0 cs
  | close {depth : Nat} {front rest : List Char} (level : Balanced front)
      (more : Closes depth rest) :
      Closes (depth + 1) (front ++ '}' :: rest)

theorem Closes.prepend (h : Closes depth rest) (front : List Char)
    (hfront : ∀ cs, Balanced cs → Balanced (front ++ cs)) : Closes depth (front ++ rest) := by
  cases h with
  | level level => exact .level (hfront _ level)
  | @close depth first rest level more =>
    rw [← append_assoc]
    exact .close (hfront first level) more

theorem closingBrace?_cons (c : Char) (cs : List Char) : closingBrace? depth (c :: cs) =
    if c = '{' then (closingBrace? (depth + 1) cs).map (· + 1)
    else if c = '}' then
      if depth = 0 then some 0 else (closingBrace? (depth - 1) cs).map (· + 1)
    else (closingBrace? depth cs).map (· + 1) := by
  cases depth <;> simp [closingBrace?]

theorem Balanced.closingBrace?_append (h : Balanced cs) (depth : Nat) (rest : List Char) :
    closingBrace? depth (cs ++ rest) = (closingBrace? depth rest).map (· + cs.length) := by
  induction h generalizing depth rest with
  | nil => simp
  | plain notOpen notClose more ih =>
    rw [cons_append, closingBrace?_cons, if_neg notOpen, if_neg notClose, ih, Option.map_map]
    rfl
  | @pair inner behind inside more ih ihMore =>
    rw [cons_append, closingBrace?_cons, if_pos rfl, append_assoc, ih, cons_append,
      closingBrace?_cons, if_neg (by decide), if_pos rfl, if_neg (Nat.succ_ne_zero depth),
      Nat.add_sub_cancel, ihMore]
    simp only [Option.map_map, length_cons, length_append]
    congr 1
    funext k
    simp only [Function.comp_apply]
    omega

theorem closes_of_closingBrace? (h : closingBrace? depth cs = some n) :
    ∃ content rest, cs = content ++ '}' :: rest ∧ n = content.length ∧ Closes depth content := by
  induction cs generalizing depth n with
  | nil => cases h
  | cons c cs ih =>
    have hstep {deeper : Nat} (hmap : (closingBrace? deeper cs).map (· + 1) = some n) :
        ∃ content rest, c :: cs = (c :: content) ++ '}' :: rest ∧ n = (c :: content).length ∧
          Closes deeper content := by
      obtain ⟨k, hk, rfl⟩ := Option.map_eq_some_iff.mp hmap
      obtain ⟨content, rest, rfl, rfl, hcloses⟩ := ih hk
      exact ⟨content, rest, rfl, rfl, hcloses⟩
    rw [closingBrace?_cons] at h
    split at h
    · rename_i hopen
      obtain ⟨content, rest, hcs, hn, hcloses⟩ := hstep h
      subst hopen
      cases hcloses with
      | @close depth front behind level more =>
        refine ⟨_, rest, hcs, hn, ?_⟩
        have hpair := more.prepend ('{' :: (front ++ ['}'])) fun cs hcs => by
          simpa using Balanced.pair level hcs
        simpa using hpair
    split at h
    · rename_i hclose
      subst hclose
      split at h
      · rename_i hzero
        subst hzero
        cases h
        exact ⟨[], cs, rfl, rfl, .level .nil⟩
      · rename_i hpositive
        obtain ⟨content, rest, hcs, hn, hcloses⟩ := hstep h
        have hclosed := Closes.close .nil hcloses
        rw [Nat.sub_add_cancel (Nat.pos_of_ne_zero hpositive)] at hclosed
        exact ⟨_, rest, hcs, hn, hclosed⟩
    · rename_i hopen hclose
      obtain ⟨content, rest, hcs, hn, hcloses⟩ := hstep h
      exact ⟨_, rest, hcs, hn, hcloses.prepend [c] fun cs => .plain hopen hclose⟩

theorem not_balanced_of_closingBrace? (h : closingBrace? 0 cs = none) :
    ¬ ∃ content rest, cs = content ++ '}' :: rest ∧ Balanced content := by
  rintro ⟨content, rest, rfl, hbalanced⟩
  rw [hbalanced.closingBrace?_append, closingBrace?_cons] at h
  cases h

/-! ## Fragments -/

/-- The pieces of a content that goes on with `cs` at `index`: what the outermost balanced pairs of
braces hold, each with the place of its first character, and the text around them. -/
inductive Outermost : Nat → List Char → List Piece → Prop where
  | text {index : Nat} {cs : List Char} (none : '{' ∉ cs) : Outermost index cs (textPiece cs)
  | unbalanced {index : Nat} {before rest : List Char} (first : '{' ∉ before)
      (none : ¬ ∃ content more, rest = content ++ '}' :: more ∧ Balanced content) :
      Outermost index (before ++ '{' :: rest) (textPiece (before ++ '{' :: rest))
  | pair {index : Nat} {before content rest : List Char} {pieces : List Piece}
      (first : '{' ∉ before)
      (balanced : Balanced content)
      (more : Outermost (index + before.length + 1 + content.length + 1) rest pieces) :
      Outermost index (before ++ '{' :: (content ++ '}' :: rest))
        (textPiece before ++ .braced (index + before.length + 1) content :: pieces)

theorem outermost_pieces (index : Nat) (cs : List Char) : Outermost index cs (pieces index cs) := by
  have hfirst (cs : List Char) : '{' ∉ cs.takeWhile (· != '{') := fun hmem => by
    simpa using mem_takeWhile_imp hmem
  have hbrace {cs rest : List Char} {brace : Char} (h : cs.dropWhile (· != '{') = brace :: rest) :
      brace = '{' ∧ cs = cs.takeWhile (· != '{') ++ brace :: rest := by
    refine ⟨?_, by rw [← h, takeWhile_append_dropWhile]⟩
    have hhead := head?_dropWhile_not (· != '{') cs
    rw [h] at hhead
    simpa using hhead
  fun_induction pieces index cs with
  | case1 index cs before hnone =>
    have hcs : before = cs := takeWhile_eq_self_iff.mpr (dropWhile_eq_nil_iff.mp hnone)
    rw [hcs]
    exact .text (hcs ▸ hfirst cs)
  | case2 index cs before brace rest hrest hclosing =>
    obtain ⟨rfl, hcs⟩ := hbrace hrest
    rw [hcs]
    exact .unbalanced (hfirst cs) (not_balanced_of_closingBrace? hclosing)
  | case3 index cs before brace rest hrest n hclosing start ih =>
    obtain ⟨rfl, hcs⟩ := hbrace hrest
    obtain ⟨content, behind, rfl, rfl, hcloses⟩ := closes_of_closingBrace? hclosing
    cases hcloses with
    | level level =>
      rw [take_left, hcs]
      refine .pair (hfirst cs) level ?_
      simpa using ih

/-- What stands between two braces of a literal is a stretch of the literal. -/
theorem Outermost.split {index place : Nat} {list : List Piece} (h : Outermost index cs list)
    (hmem : Piece.braced place content ∈ list) :
    ∃ before after, cs = before ++ '{' :: (content ++ '}' :: after) ∧
      place = index + before.length + 1 := by
  have htext {cs : List Char} : Piece.braced place content ∉ textPiece cs := by
    unfold textPiece
    split <;> simp
  induction h with
  | text none => exact absurd hmem htext
  | unbalanced first none => exact absurd hmem htext
  | @pair index before inner rest list first balanced more ih =>
    rcases mem_cons.mp ((mem_append.mp hmem).resolve_left htext) with heq | hmem
    · cases heq
      exact ⟨before, rest, rfl, rfl⟩
    · obtain ⟨front, behind, rfl, rfl⟩ := ih hmem
      refine ⟨before ++ '{' :: (inner ++ '}' :: front), behind, by simp, ?_⟩
      simp only [length_append, length_cons]
      omega

end GuidedTrack.Expr
