import GuidedTrack.Token.Document

/-! # Tokens laid over text

`Row` lays tokens over a stretch of a line: every character belongs to the next token or is a blank
between two, and every token knows its place. Each scanner of the language yields a row over what it
reads, and `Rows` puts rows and line breaks together to a document.
-/

namespace GuidedTrack

open List

variable {cs : List Char} {p : Position}

namespace Position

@[simp] theorem advance_zero (p : Position) : p.advance 0 = p := by
  cases p
  simp [advance]

@[simp] theorem advance_advance (p : Position) (m n : Nat) :
    (p.advance m).advance n = p.advance (m + n) := by
  simp [advance, Int.add_assoc]

end Position

namespace Token

open Text

def shape (token : Token) : Kind × String :=
  (token.kind, token.text)

/-- How a token's text stands in the source: a directive with its star and in any case, a comment
behind its dashes, an operator that is a word in any case, and all else as it is. -/
def Spells (token : Token) (piece : List Char) : Prop :=
  match token.kind with
  | .keyword | .subKeyword => ∃ word, piece = '*' :: word ∧ lower (String.ofList word) = token.text
  | .comment => piece = '-' :: '-' :: token.text.toList
  | .operator =>
    if token.text ∈ Vocabulary.wordOperators then lower (String.ofList piece) = token.text
    else piece = token.text.toList
  | _ => piece = token.text.toList

def Kind.isVerbatim : Kind → Bool
  | newline | keyword | subKeyword | comment | operator => false
  | _ => true

def Kind.isDirective : Kind → Bool
  | keyword | subKeyword => true
  | _ => false

/-- Tokens over a stretch of a line that starts at a position. -/
inductive Row : Position → List Char → List Token → Prop where
  | nil {p : Position} : Row p [] []
  | blank {p : Position} {c : Char} {cs : List Char} {tokens : List Token}
      (blank : isBlank c = true) (rest : Row (p.advance 1) cs tokens) : Row p (c :: cs) tokens
  | token {p : Position} {token : Token} {piece cs : List Char} {tokens : List Token}
      (span : token.span = ⟨p, p.advance piece.length⟩) (spells : token.Spells piece)
      (filled : piece ≠ []) (kind : token.kind ≠ .newline)
      (rest : Row (p.advance piece.length) cs tokens) : Row p (piece ++ cs) (token :: tokens)
  | mark {p : Position} {kind : Kind} {cs : List Char} {tokens : List Token}
      (empty : kind = .dedent ∨ kind = .endOfInput) (rest : Row p cs tokens) :
      Row p cs (mark kind p :: tokens)

namespace Row

theorem append {p : Position} {as bs : List Char} {ts us : List Token} (ha : Row p as ts)
    (hb : Row (p.advance as.length) bs us) : Row p (as ++ bs) (ts ++ us) := by
  induction ha with
  | nil => simpa using hb
  | blank hblank rest ih =>
    refine .blank hblank (ih ?_)
    simpa [Nat.add_comm] using hb
  | token span spells filled kind rest ih =>
    rw [append_assoc]
    refine .token span spells filled kind (ih ?_)
    simpa using hb
  | mark empty rest ih => exact .mark empty (ih hb)

theorem single {token : Token} {piece : List Char} (span : token.span = ⟨p, p.advance piece.length⟩)
    (spells : token.Spells piece) (filled : piece ≠ []) (kind : token.kind ≠ .newline) :
    Row p piece [token] := by
  simpa using Row.token span spells filled kind Row.nil

theorem blanks (h : ∀ c ∈ cs, isBlank c = true) : Row p cs [] := by
  induction cs generalizing p with
  | nil => exact .nil
  | cons c cs ih =>
    exact .blank (h c mem_cons_self) (ih fun d hd => h d (mem_cons_of_mem c hd))

theorem gaps (h : Gaps cs) : Row p cs [] :=
  blanks fun c hc => isBlank_of_isGap (h c hc)

end Row

theorem Row.spelled {kind : Kind} (filled : cs ≠ []) (verbatim : kind.isVerbatim = true) :
    Row p cs [spelled kind p cs] := by
  refine .single rfl ?_ filled ?_
  · cases kind <;> simp_all [Spells, Token.spelled, covering, Kind.isVerbatim]
  · rintro h
    rw [show kind = .newline from h] at verbatim
    cases verbatim

theorem kinds_lineBreak (line : Source.Line) (p : Position) :
    ∀ token ∈ lineBreak line p, token.kind = .newline := by
  unfold lineBreak
  split
  · simp
  · intro token htoken
    rw [mem_singleton.mp htoken]
    rfl

end Token
end GuidedTrack
