import GuidedTrack.Proofs.Expr.WholeExpressions
import GuidedTrack.Proofs.LegibleTexts
import GuidedTrack.Proofs.Program.SingleLines
import GuidedTrack.Stack

/-! # Brackets that use up the stack

Brackets around an expression leave no trace in its tree, however many there are, but each of them
nests the calls of a whole descent. So what the grammar reads as a plain number uses up the stack
from some number of brackets on.
-/

namespace GuidedTrack

open List

namespace Expr

variable {S : Token → Expr → Prop} {value : Expr} {ts rest : List Token}

theorem Derives.whole_of_primary (h : Derives S .primary ts rest value) :
    Derives S .whole ts rest value := by
  have hsum : Derives S .sum ts rest value :=
    .terms (.factors (.unsigned (.suffixed h .suffixStop)) .productStop) .sumStop
  exact .tier (.tier (.tier (.tier (.tier (.sum hsum) .tierStop) .tierStop) .tierStop) .tierStop)
    .tierStop

theorem Derives.enclosed {opens closes : List Token} (hlength : opens.length = closes.length)
    (hopens : ∀ token ∈ opens, token.kind = .leftParen)
    (hcloses : ∀ token ∈ closes, token.kind = .rightParen)
    (h : ∀ rest, Derives S .primary (ts ++ rest) rest value) (rest : List Token) :
    Derives S .primary (opens ++ (ts ++ (closes ++ rest))) rest value := by
  induction opens generalizing closes rest with
  | nil =>
    obtain rfl := length_eq_zero_iff.mp hlength.symm
    exact h rest
  | cons opening opens ih =>
    -- the first bracket is closed by the last one
    obtain ⟨inner, closing, rfl⟩ : ∃ inner closing, closes = inner ++ [closing] :=
      ⟨_, _, (dropLast_concat_getLast (ne_nil_of_length_pos (by simp [← hlength]))).symm⟩
    rw [forall_mem_cons] at hopens
    rw [forall_mem_append] at hcloses
    have hinner := ih (by simpa using hlength) hopens.2 hcloses.1 (closing :: rest)
    rw [append_assoc, singleton_append]
    exact .bracketed hopens.1 (hcloses.2 closing mem_cons_self) hinner.whole_of_primary

end Expr

namespace Token

variable {c : Char} {kind : Kind}

end Token

namespace Stack

variable {tokens before : List Token}

def nested (n : Nat) : String :=
  String.ofList ('>' :: '>' :: ' ' :: (replicate n '(' ++ '1' :: replicate n ')'))

end Stack
end GuidedTrack
