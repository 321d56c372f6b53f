import GuidedTrack.Proofs.Token.ResumedLines

/-! # How lines end

A line is a comment, an open string, prose whose interpolations are all closed, or it ends inside an
expression: in a line of code, or in an interpolation that is left open. In the last case the line
may be given another end.
-/

namespace GuidedTrack.Token

open List Text Vocabulary Contract

variable {c quote : Char} {rest tail cs : List Char} {inside : Option Nat} {name : String}

/-- Scans the rest of a line from inside an expression: that of the line, or one in an interpolation
with so many braces open in it. -/
def scanInside (emphasis : Bool) (inside : Option Nat) (p : Position) (cs : List Char) :
    List Token :=
  match inside with
  | none => (scanExpression none p cs).1
  | some depth => scanHole emphasis depth p cs

/-- A line that ends inside an expression, behind `front`. The kinds of the first tokens of the line
may differ with the depth of the line, but they are plain. -/
structure EndsIn (inside : Option Nat) (front tail : List Char) (kinds : List Kind) : Prop where
  filled : front ≠ []
  trails : Trails inside.isNone tail
  weaves : Weaves .prose kinds (.ofDepth inside) ∨ Weaves .code kinds (.ofDepth inside)
  resumes : ∃ emphasis, ∀ depth, ∃ heads, (∀ kind ∈ heads, kind.isPlain = true) ∧
    Resumes (scanContent depth) (scanInside emphasis inside) front tail (heads ++ kinds)

inductive Ending : List Char → Prop where
  | comment {cs : List Char} : Ending ('-' :: '-' :: cs)
  | string {quote : Char} {cs : List Char} (quoted : isQuote quote = true) (unclosed : quote ∉ cs) :
      Ending (quote :: cs)
  | closed {cs : List Char} {kinds : List Kind} (weaves : Weaves .prose kinds .prose)
      (spread : ∀ depth, ∃ heads, (∀ kind ∈ heads, kind.isPlain = true) ∧
        ∀ p, Spread p cs (heads ++ kinds) (scanContent depth p cs)) : Ending cs
  | inside {inside : Option Nat} {front tail : List Char} {kinds : List Kind}
      (ends : EndsIn inside front tail kinds) : Ending (front ++ tail)

theorem passes_code (cs : List Char) :
    ∃ front tail kinds, cs = front ++ tail ∧ Trails true tail ∧ Weaves .code kinds .code ∧
      Resumes (fun p cs => (scanExpression none p cs).1) (fun p cs => (scanExpression none p cs).1)
        front tail kinds := by
  obtain ⟨front, tail, kinds, after, rfl, hpasses, hends⟩ := passes_exists none cs
  obtain rfl : after = none := by simpa using hpasses.isSome_eq
  refine ⟨front, tail, kinds, rfl, ?_, hpasses.weaves, fun other hother p => ?_⟩
  · rcases hends with htrails | ⟨hdepth, -⟩
    · exact htrails
    · cases hdepth
  · have hexchanged : Passes none front other kinds none := by
      rcases hother with rfl | ⟨hstop, -⟩
      · exact hpasses
      · exact hpasses.exchange hstop
    obtain ⟨tokens, hfills, htokens, -⟩ := hexchanged.scan p
    exact ⟨tokens, hfills, htokens⟩

theorem Resumes.behind {scan next whole : Position → List Char → List Token}
    {head front tail : List Char} {heads kinds : List Kind} (h : Resumes scan next front tail kinds)
    (hscan : ∀ other, Follows tail other → ∀ p, ∃ tokens, Spread p head heads tokens ∧
      (front = [] → Fills p head heads tokens) ∧
      whole p (head ++ (front ++ other)) =
        tokens ++ scan (p.advance head.length) (front ++ other)) :
    Resumes whole next (head ++ front) tail (heads ++ kinds) := by
  intro other hother p
  obtain ⟨first, hspread, hfirst, hwhole⟩ := hscan other hother p
  obtain ⟨tokens, hfills, htokens⟩ := h other hother (p.advance head.length)
  refine ⟨first ++ tokens, ?_, ?_⟩
  · by_cases hempty : front = []
    · exact (hfirst hempty).append hfills
    · exact hspread.fills hfills hempty
  · rw [append_assoc, hwhole, htokens, Position.advance_advance, append_assoc,
      length_append]

theorem ending_expression (cs : List Char) : Ending ('>' :: '>' :: cs) := by
  obtain ⟨front, tail, kinds, rfl, htrails, hweaves, hresumes⟩ := passes_code cs
  have hends : EndsIn none (['>', '>'] ++ front) tail kinds := by
    refine ⟨cons_ne_nil _ _, htrails, .inr hweaves, true, fun depth => ?_⟩
    refine ⟨[.expressionStart], by decide, hresumes.behind fun other hother p => ?_⟩
    have hfills : Fills p ['>', '>'] [.expressionStart] [covering .expressionStart ">>" p 2] :=
      fills_token (by decide) rfl (cons_ne_nil _ _) rfl
    exact ⟨_, hfills.toSpread, fun _ => hfills, rfl⟩
  exact .inside hends

/-! ## Directives -/

theorem find?_exchange {old new : List Char} (h : new.filter isSignal = old.filter isSignal)
    {p : Char → Bool} (hp : ∀ c, p c = true → isSignal c = true) : new.find? p = old.find? p := by
  have hfilter (cs : List Char) : cs.find? p = (cs.filter isSignal).find? p := by
    rw [find?_filter]
    refine congrArg (cs.find? ·) (funext fun c => ?_)
    cases hc : p c with
    | false => simp
    | true => simp [hp c hc]
  rw [hfilter, h, ← hfilter]

theorem startsDirective_exchange {old new : List Char} (hhead : new.head? = old.head?)
    (h : new.filter isSignal = old.filter isSignal) :
    startsDirective new = startsDirective old := by
  have hfind : new.find? (fun c => c == ':' || c == '*') =
      old.find? fun c => c == ':' || c == '*' :=
    find?_exchange h fun c hc => by simp only [isSignal, hc, Bool.true_or]
  rw [startsDirective, startsDirective, hfind, hhead]

/-- The argument of a directive is an expression at every depth, or at none. -/
theorem directiveKind_of_takesExpression (h : takesExpression name = true) (depth : Nat) :
    Vocabulary.directiveKind name depth = .keyword := by
  have hnone : ∀ name ∈ Vocabulary.subKeywords, Contract.takesExpression name = false := by
    decide +kernel
  rw [directiveKind]
  refine if_neg fun hsub => ?_
  rw [Bool.and_eq_true, contains_iff_mem] at hsub
  rw [hnone name hsub.2] at h
  cases h

theorem takesExpression_lower (h : takesExpression name = true) :
    takesExpression (lower name) = true := by
  have hkeys : ∀ entry ∈ table, lower entry.1 = entry.1 := by decide +kernel
  have hkeep : lower (lower name) = lower name := by
    unfold Contract.takesExpression Contract.find? at h
    cases hfound : table.lookup (lower name) with
    | none =>
      rw [hfound] at h
      cases h
    | some contract =>
      obtain ⟨front, back, htable, -⟩ := lookup_eq_some_iff.mp hfound
      exact hkeys (lower name, contract) (by simp [htable])
  unfold Contract.takesExpression Contract.find? at h ⊢
  rwa [hkeep]

/-! ## Lines of prose -/

/-- `new` is `old` with another end behind an interpolation that `old` does not close. -/
def Alike (old new : List Char) : Prop :=
  new = old ∨ ∃ front tail other, old = front ++ tail ∧ new = front ++ other ∧ '{' ∈ front ∧
    other.filter isSignal = tail.filter isSignal

namespace Alike

variable {old new : List Char}

theorem head?_eq (h : Alike old new) : new.head? = old.head? := by
  rcases h with rfl | ⟨front, tail, other, rfl, rfl, hbrace, -⟩
  · rfl
  · cases front with
    | nil => cases hbrace
    | cons c front => rfl

theorem filter_eq (h : Alike old new) : new.filter isSignal = old.filter isSignal := by
  rcases h with rfl | ⟨front, tail, other, rfl, rfl, -, hsignals⟩
  · rfl
  · rw [filter_append, filter_append, hsignals]

theorem uncons (h : Alike (c :: old) new) (hc : c ≠ '{') :
    ∃ rest, new = c :: rest ∧ Alike old rest := by
  rcases h with rfl | ⟨front, tail, other, hold, rfl, hbrace, hsignals⟩
  · exact ⟨old, rfl, .inl rfl⟩
  · cases front with
    | nil => cases hbrace
    | cons d front =>
      obtain ⟨rfl, rfl⟩ := cons.inj hold
      exact ⟨front ++ other, rfl, .inr ⟨front, tail, other, rfl, rfl,
        (mem_cons.mp hbrace).resolve_left fun heq => hc heq.symm, hsignals⟩⟩

end Alike

theorem ending_prose {head body : List Char} (emphasis : Bool)
    (h : ∀ depth, ∃ heads : List Kind, (∀ kind ∈ heads, kind.isPlain = true) ∧
      ∀ other, Alike body other → ∀ p, ∃ tokens, Spread p head heads tokens ∧
        scanContent depth p (head ++ other) =
          tokens ++ scanText emphasis (p.advance head.length) other) : Ending (head ++ body) := by
  rcases scanText_cases emphasis body with ⟨kinds, hweaves, hclosed⟩ |
    ⟨front, tail, kinds, depth, rfl, hbrace, htrails, hweaves, hresumes⟩
  · refine .closed hweaves fun depth => ?_
    obtain ⟨heads, hheads, hscan⟩ := h depth
    refine ⟨heads, hheads, fun p => ?_⟩
    obtain ⟨tokens, hspread, heq⟩ := hscan body (.inl rfl) p
    rw [heq]
    exact hspread.append (hclosed _)
  · have hends : EndsIn (some depth) (head ++ front) tail kinds := by
      refine ⟨by simp [ne_nil_of_mem hbrace], htrails, .inl hweaves, emphasis, fun depth => ?_⟩
      obtain ⟨heads, hheads, hscan⟩ := h depth
      refine ⟨heads, hheads, hresumes.behind fun other hother p => ?_⟩
      obtain ⟨tokens, hspread, heq⟩ := hscan (front ++ other)
        (.inr ⟨front, tail, other, rfl, rfl, hbrace, hother.filter_eq⟩) p
      exact ⟨tokens, hspread, fun hnil => absurd hnil (ne_nil_of_mem hbrace), heq⟩
    rw [← append_assoc]
    exact .inside hends

theorem scanContent_text (hdashes : ¬(c = '-' ∧ rest.head? = some '-'))
    (harrows : ¬(c = '>' ∧ rest.head? = some '>'))
    (hdirective : ¬(c = '*' ∧ startsDirective rest = true)) (hquote : isQuote c = false)
    (depth : Nat) (p : Position) :
    scanContent depth p (c :: rest) = scanText true p (c :: rest) := by
  rw [scanContent]
  · rw [if_neg (by simpa using hdirective), hquote]
    rfl
  · rintro more rfl hrest
    exact hdashes ⟨rfl, by rw [hrest]; rfl⟩
  · rintro more rfl hrest
    exact harrows ⟨rfl, by rw [hrest]; rfl⟩

theorem ending_text (hdashes : ¬(c = '-' ∧ rest.head? = some '-'))
    (harrows : ¬(c = '>' ∧ rest.head? = some '>'))
    (hdirective : ¬(c = '*' ∧ startsDirective rest = true)) (hquote : isQuote c = false) :
    Ending (c :: rest) := by
  refine @ending_prose [] (c :: rest) true fun depth => ⟨[], by simp, fun other hother p => ?_⟩
  refine ⟨[], .nil [], ?_⟩
  rw [nil_append, nil_append, length_nil, Position.advance_zero]
  by_cases hbrace : c = '{'
  · obtain ⟨more, rfl⟩ := head?_eq_some_iff.mp (hother.head?_eq.trans head?_cons)
    subst hbrace
    exact scanContent_text (by simp) (by simp) (by simp) rfl depth p
  · obtain ⟨more, rfl, halike⟩ := hother.uncons hbrace
    refine scanContent_text ?_ ?_ ?_ hquote depth p
    · rwa [halike.head?_eq]
    · rwa [halike.head?_eq]
    · rwa [startsDirective_exchange halike.head?_eq halike.filter_eq]

theorem scanContent_quoted (hquote : isQuote quote = true) (depth : Nat) (p : Position)
    (cs : List Char) : scanContent depth p (quote :: cs) = scanQuoted p quote cs := by
  have hchar : quote = '"' ∨ quote = '\'' := by simpa [isQuote] using hquote
  rcases hchar with rfl | rfl <;> rfl

theorem ending_quoted (hquote : isQuote quote = true) (cs : List Char) : Ending (quote :: cs) := by
  cases hfound : cs.findIdx? (· == quote) with
  | none =>
    refine .string hquote fun hmem => ?_
    simpa using findIdx?_eq_none_iff.mp hfound quote hmem
  | some i =>
    have hi : i + 1 ≤ cs.length := (findIdx?_eq_some_iff_getElem.mp hfound).choose
    obtain ⟨lex, more, rfl, hlex⟩ : ∃ lex more, cs = lex ++ more ∧ lex.length = i + 1 :=
      ⟨cs.take (i + 1), cs.drop (i + 1), (take_append_drop (i + 1) cs).symm,
        length_take_of_le hi⟩
    have hlexeme : quotedLexeme quote (lex ++ more) = (.string, lex.length) := by
      rw [quotedLexeme, hfound, hlex]
    refine @ending_prose (quote :: lex) more true fun depth =>
      ⟨[.string], by decide, fun other hother p => ?_⟩
    refine ⟨[spelled .string p (quote :: lex)], ?_, ?_⟩
    · exact (fills_token (by decide) rfl (cons_ne_nil _ _) rfl).toSpread
    · rw [cons_append, scanContent_quoted hquote, scanQuoted, quotedLexeme_string hlexeme]
      simp

theorem isPlain_directiveKind (name : String) (depth : Nat) :
    (directiveKind name depth).isPlain = true := by
  rcases directiveKind_eq name depth with h | h <;> rw [h] <;> rfl

theorem fills_name (name : List Char) (depth : Nat) (p : Position) :
    let word := lower (String.ofList name)
    Fills p ('*' :: name) [directiveKind word depth]
      [covering (directiveKind word depth) word p (name.length + 1)] := by
  refine fills_token ?_ ?_ (cons_ne_nil _ _) rfl
  all_goals
    rcases directiveKind_eq (lower (String.ofList name)) depth with h | h
    all_goals rw [h]
    all_goals simp [isOpenString, covering, Kind.isStructural]

theorem scanContent_bare {name after : List Char} (hname : ∀ c ∈ name, isNameChar c = true)
    (hafter : ∀ c, after.head? = some c → isNameChar c = false ∧ c ≠ ':')
    (h : startsDirective (name ++ after) = true) (depth : Nat) (p : Position) :
    scanContent depth p ('*' :: (name ++ after)) =
      let word := lower (String.ofList name)
      covering (directiveKind word depth) word p (name.length + 1) ::
        scanText true ((p.advance (name.length + 1)).advance (after.takeWhile isGap).length)
          (after.dropWhile isGap) := by
  have hstop : after.takeWhile isNameChar = [] ∧ after.dropWhile isNameChar = after := by
    cases after with
    | nil => exact ⟨rfl, rfl⟩
    | cons c after => simp [(hafter c rfl).1]
  have htake : (name ++ after).takeWhile isNameChar = name := by
    rw [takeWhile_append_of_pos hname, hstop.1, append_nil]
  have hdrop : (name ++ after).dropWhile isNameChar = after := by
    rw [dropWhile_append_of_pos hname, hstop.2]
  rw [scanContent, if_pos (by rw [h]; rfl), scanDirective, htake, hdrop]
  · dsimp only
    split
    · rename_i more
      exact absurd rfl (hafter ':' rfl).2
    · rfl
  · exact fun _ hc => absurd hc (by decide)
  · exact fun _ hc => absurd hc (by decide)

theorem scanArgument_code (h : takesExpression name = true) (depth : Nat) (p : Position)
    (cs : List Char) :
    scanArgument (directiveKind name depth) name p cs = (scanExpression none p cs).1 := by
  rw [← scanExpression_dropWhile p cs, scanArgument, directiveKind_of_takesExpression h, h]
  rfl

theorem head?_dropWhile_isGap (cs : List Char) :
    (cs.dropWhile isGap).head?.any isGap = false := by
  have hnot := head?_dropWhile_not isGap cs
  cases hhead : (cs.dropWhile isGap).head? with
  | none => rfl
  | some c =>
    rw [hhead] at hnot
    exact hnot

theorem cut_gaps {gaps other : List Char} (hgaps : Gaps gaps)
    (hother : other.head?.any isGap = false) :
    (gaps ++ other).takeWhile isGap = gaps ∧ (gaps ++ other).dropWhile isGap = other := by
  rw [takeWhile_append_of_pos hgaps, dropWhile_append_of_pos hgaps]
  cases other with
  | nil => simp
  | cons c more =>
    have hc : isGap c = false := hother
    simp [hc]

theorem exists_gaps (cs : List Char) :
    ∃ gaps body, cs = gaps ++ body ∧ ∀ other, Alike body other →
      (gaps ++ other).takeWhile isGap = gaps ∧ (gaps ++ other).dropWhile isGap = other := by
  refine ⟨cs.takeWhile isGap, cs.dropWhile isGap, takeWhile_append_dropWhile.symm,
    fun other hother => cut_gaps (fun c hc => mem_takeWhile_imp hc) ?_⟩
  rw [hother.head?_eq]
  exact head?_dropWhile_isGap cs

theorem ending_colon {name : List Char} (hfilled : name ≠ [])
    (hname : ∀ c ∈ name, isNameChar c = true) (cs : List Char) :
    Ending ('*' :: (name ++ ':' :: cs)) := by
  let word := lower (String.ofList name)
  have hscan (depth : Nat) (p : Position) (other : List Char) :=
    scanContent_directive depth p hfilled hname other
  have hfills (depth : Nat) (p : Position) : Fills p ('*' :: name ++ [':'])
      [directiveKind word depth, .colon]
      [covering (directiveKind word depth) word p (name.length + 1),
        covering .colon ":" (p.advance (name.length + 1)) 1] :=
    (fills_name name depth p).append
      (fills_token (by decide) rfl (cons_ne_nil _ _) rfl)
  have hplain (depth : Nat) :
      ∀ kind ∈ [directiveKind word depth, .colon], kind.isPlain = true := by
    simpa using ⟨isPlain_directiveKind word depth, rfl⟩
  cases htakes : takesExpression word with
  | true =>
    obtain ⟨front, tail, kinds, rfl, htrails, hweaves, hresumes⟩ := passes_code cs
    have hends : EndsIn none (('*' :: name ++ [':']) ++ front) tail kinds := by
      refine ⟨by simp, htrails, .inr hweaves, true, fun depth => ⟨_, hplain depth, ?_⟩⟩
      refine hresumes.behind fun other hother p => ?_
      refine ⟨_, (hfills depth p).toSpread, fun _ => hfills depth p, ?_⟩
      have hcontent := hscan depth p (front ++ other)
      dsimp only at hcontent
      rw [scanArgument_code htakes] at hcontent
      simpa using hcontent
    simpa using Ending.inside hends
  | false =>
    obtain ⟨gaps, body, rfl, hgaps⟩ := exists_gaps cs
    have hprose : Ending (('*' :: name ++ [':'] ++ gaps) ++ body) := by
      refine ending_prose (!plainArguments.contains word) fun depth =>
        ⟨_, hplain depth, fun other hother p => ?_⟩
      refine ⟨_, by simpa using (hfills depth p).toSpread.append (.nil gaps), ?_⟩
      have hcontent := hscan depth p (gaps ++ other)
      dsimp only at hcontent
      rw [scanArgument, htakes, Bool.and_false, (hgaps other hother).1, (hgaps other hother).2]
        at hcontent
      simpa [Nat.add_assoc, Nat.add_comm, Nat.add_left_comm] using hcontent
    simpa using hprose

theorem ending_bare {name after : List Char} (hname : ∀ c ∈ name, isNameChar c = true)
    (hafter : ∀ c, after.head? = some c → isNameChar c = false ∧ c ≠ ':')
    (h : startsDirective (name ++ after) = true) : Ending ('*' :: (name ++ after)) := by
  let word := lower (String.ofList name)
  obtain ⟨gaps, body, rfl, hgaps⟩ := exists_gaps after
  have hprose : Ending (('*' :: name ++ gaps) ++ body) := by
    refine ending_prose true fun depth =>
      ⟨[directiveKind word depth], by simpa using isPlain_directiveKind word depth,
        fun other hother p => ?_⟩
    refine ⟨_, by simpa using (fills_name name depth p).toSpread.append (.nil gaps), ?_⟩
    have hhead : (gaps ++ other).head? = (gaps ++ body).head? := by
      rw [head?_append, head?_append, hother.head?_eq]
    have hstarts : startsDirective (name ++ (gaps ++ other)) = true := by
      rw [← h]
      refine startsDirective_exchange ?_ ?_
      · simp only [head?_append, hother.head?_eq]
      · simp only [filter_append, hother.filter_eq]
    have hcontent := scanContent_bare hname (by rwa [hhead]) hstarts depth p
    dsimp only at hcontent
    rw [(hgaps other hother).1, (hgaps other hother).2] at hcontent
    simpa [Nat.add_assoc, Nat.add_comm, Nat.add_left_comm] using hcontent
  simpa using hprose

theorem exists_directiveName (h : startsDirective rest = true) :
    ∃ name after, rest = name ++ after ∧ name ≠ [] ∧ (∀ c ∈ name, isNameChar c = true) ∧
      ∀ c, after.head? = some c → isNameChar c = false := by
  obtain ⟨name, after, rfl, hname, hafter⟩ : ∃ name after, rest = name ++ after ∧
      (∀ c ∈ name, isNameChar c = true) ∧ ∀ c, after.head? = some c → isNameChar c = false := by
    refine ⟨rest.takeWhile isNameChar, rest.dropWhile isNameChar,
      takeWhile_append_dropWhile.symm, fun c hc => mem_takeWhile_imp hc, fun c hc => ?_⟩
    simpa [hc] using head?_dropWhile_not isNameChar rest
  refine ⟨name, after, rfl, ?_, hname, hafter⟩
  rintro rfl
  obtain ⟨c, hhead, hc⟩ := (Option.any_eq_true _ _).mp (Bool.and_eq_true_iff.mp h).1
  rw [hafter c hhead] at hc
  cases hc

theorem ending_directive (h : startsDirective rest = true) : Ending ('*' :: rest) := by
  obtain ⟨name, after, rfl, hfilled, hname, hafter⟩ := exists_directiveName h
  by_cases hcolon : after.head? = some ':'
  · obtain ⟨more, rfl⟩ := head?_eq_some_iff.mp hcolon
    exact ending_colon hfilled hname more
  · refine ending_bare hname (fun c hc => ⟨hafter c hc, ?_⟩) h
    rintro rfl
    exact hcolon hc

theorem ending_exists {body : List Char} (h : body ≠ []) : Ending body := by
  obtain ⟨c, rest, rfl⟩ := exists_cons_of_ne_nil h
  by_cases hdashes : c = '-' ∧ rest.head? = some '-'
  · obtain ⟨rfl, hrest⟩ := hdashes
    obtain ⟨more, rfl⟩ := head?_eq_some_iff.mp hrest
    exact .comment
  by_cases harrows : c = '>' ∧ rest.head? = some '>'
  · obtain ⟨rfl, hrest⟩ := harrows
    obtain ⟨more, rfl⟩ := head?_eq_some_iff.mp hrest
    exact ending_expression more
  by_cases hdirective : c = '*' ∧ startsDirective rest = true
  · obtain ⟨rfl, hstarts⟩ := hdirective
    exact ending_directive hstarts
  cases hquote : isQuote c with
  | true => exact ending_quoted hquote rest
  | false => exact ending_text hdashes harrows hdirective hquote

/-! ## The rest of an expression -/

theorem Passes.scanInside {after : Option Nat} {front : List Char} {kinds : List Kind}
    (h : Passes inside front tail kinds after) (emphasis : Bool) (p : Position) :
    ∃ tokens, Fills p front kinds tokens ∧
      Token.scanInside emphasis inside p (front ++ tail) =
        tokens ++ Token.scanInside emphasis after (p.advance front.length) tail := by
  cases inside with
  | none =>
    obtain rfl : after = none := by simpa using h.isSome_eq
    obtain ⟨tokens, hfills, htokens, -⟩ := h.scan p
    exact ⟨tokens, hfills, htokens⟩
  | some depth =>
    obtain ⟨depth', rfl⟩ : ∃ depth', after = some depth' := Option.isSome_iff_exists.mp h.isSome_eq
    exact h.scanHole emphasis p

theorem scanInside_gap (hc : isGap c = true) (emphasis : Bool) (inside : Option Nat) (p : Position)
    (cs : List Char) :
    scanInside emphasis inside p (c :: cs) = scanInside emphasis inside (p.advance 1) cs := by
  cases inside with
  | none => exact scanExpression_gap hc p cs
  | some depth =>
    simp only [scanInside, scanHole]
    rw [scanExpression, if_pos hc]
    simp only [drop_succ_cons, Position.advance_advance, Nat.add_comm 1, Nat.add_assoc]

theorem scanInside_gaps {gaps : List Char} (hgaps : Gaps gaps) (emphasis : Bool)
    (inside : Option Nat) (p : Position) (cs : List Char) :
    scanInside emphasis inside p (gaps ++ cs) =
      scanInside emphasis inside (p.advance gaps.length) cs := by
  induction gaps generalizing p with
  | nil => simp
  | cons c gaps ih =>
    obtain ⟨hc, hgaps⟩ := forall_mem_cons.mp hgaps
    rw [cons_append, scanInside_gap hc, ih hgaps, Position.advance_advance, Nat.add_comm,
      length_cons]

theorem scanInside_nil (emphasis : Bool) (inside : Option Nat) (p : Position) :
    scanInside emphasis inside p [] = [] := by
  cases inside <;> simp [scanInside, scanHole, scanExpression]

theorem quote_facts (h : isQuote quote = true) :
    isGap quote = false ∧ quote ≠ '}' ∧ quote ≠ '-' := by
  have hchar : quote = '"' ∨ quote = '\'' := by simpa [isQuote] using h
  rcases hchar with rfl | rfl <;> decide

theorem findIdx?_of_not_mem (hcs : quote ∉ cs) :
    cs.findIdx? (· == quote) = none :=
  findIdx?_eq_none_iff.mpr fun _ hc => beq_eq_false_iff_ne.mpr fun heq => hcs (heq ▸ hc)

theorem quotedLexeme_open (hcs : quote ∉ cs) : quotedLexeme quote cs = (.error, cs.length) := by
  rw [quotedLexeme, findIdx?_of_not_mem hcs]

theorem quotedLexeme_closed (hcs : quote ∉ cs) (tail : List Char) :
    quotedLexeme quote (cs ++ [quote] ++ tail) = (.string, (cs ++ [quote]).length) := by
  have hfound : (cs ++ [quote] ++ tail).findIdx? (· == quote) = some cs.length := by
    rw [append_assoc, findIdx?_append, findIdx?_of_not_mem hcs]
    simp [findIdx?_cons]
  rw [quotedLexeme, hfound]
  simp

theorem scanInside_string (hquote : isQuote quote = true) (hcs : quote ∉ cs) (emphasis : Bool)
    (inside : Option Nat) (p : Position) :
    scanInside emphasis inside p (quote :: cs) = [spelled .error p (quote :: cs)] := by
  obtain ⟨hgap, hbrace, hdash⟩ := quote_facts hquote
  have hlexes : Lexes quote cs [] .error := .quoted hquote (by
    rw [append_nil, quotedLexeme_open hcs])
  have hscan : scanExpression inside p (quote :: cs) =
      ([spelled .error p (quote :: cs)], cs.length + 1) := by
    have hlexeme := hlexes.lexeme_eq
    rw [append_nil] at hlexeme
    rw [scanExpression, if_neg (by simp [hgap]), if_neg (by simp [hbrace]),
      if_neg (by simp [hdash]),
      hlexeme]
    simp [scanExpression, spelled, lexemeText]
  cases inside <;> simp [scanInside, scanHole, hscan]

theorem passes_string (hquote : isQuote quote = true) (hcs : quote ∉ cs) (inside : Option Nat)
    (tail : List Char) : Passes inside (quote :: (cs ++ [quote])) tail [.string] inside := by
  obtain ⟨hgap, hbrace, hdash⟩ := quote_facts hquote
  have hlexes : Lexes quote (cs ++ [quote]) ([] ++ tail) .string :=
    .quoted hquote (quotedLexeme_closed hcs tail)
  have hdepth : inside.map (braceDepth .string) = inside := by
    cases inside <;> rfl
  have hrest : Passes (inside.map (braceDepth .string)) [] tail [] inside := by
    rw [hdepth]
    exact .nil
  simpa using Passes.lexeme hgap hlexes (by simp) (by simp [hbrace]) (by simp [hdash]) hrest

def Quiet (inside : Option Nat) (tail : List Char) : Prop :=
  Gaps tail ∨
    inside = none ∧ ∀ p, ∀ token ∈ (scanExpression none p tail).1, token.kind = .comment

theorem Quiet.scanInside (h : Quiet inside tail) (emphasis : Bool) (p : Position) :
    ∀ token ∈ Token.scanInside emphasis inside p tail, token.kind = .comment := by
  rcases h with hgaps | ⟨rfl, hcomment⟩
  · have hnil := scanInside_gaps hgaps emphasis inside p []
    rw [append_nil, scanInside_nil] at hnil
    simp [hnil]
  · exact hcomment p

theorem Trails.cases (h : Trails inside.isNone tail) :
    Quiet inside tail ∨ ∃ gaps quote cs, tail = gaps ++ quote :: cs ∧ Gaps gaps ∧
      isQuote quote = true ∧ quote ∉ cs := by
  generalize hcomments : inside.isNone = comments at h
  induction h with
  | nil => exact .inl (.inl (by simp))
  | @gap c cs hc rest ih =>
    rcases ih with (hgaps | ⟨rfl, hcomment⟩) | ⟨gaps, quote, more, rfl, hgaps, hquote, hmore⟩
    · exact .inl (.inl (forall_mem_cons.mpr ⟨hc, hgaps⟩))
    · refine .inl (.inr ⟨rfl, fun p => ?_⟩)
      rw [scanExpression_gap hc]
      exact hcomment _
    · exact .inr ⟨c :: gaps, quote, more, rfl, forall_mem_cons.mpr ⟨hc, hgaps⟩, hquote, hmore⟩
  | @string quote cs hquote hcs => exact .inr ⟨[], quote, cs, rfl, by simp, hquote, hcs⟩
  | @comment cs hallowed =>
    rw [hallowed, Option.isNone_iff_eq_none] at hcomments
    refine .inl (.inr ⟨hcomments, fun p => ?_⟩)
    simp [scanExpression_comment, Token.comment, covering]

theorem scanText_gaps {gaps : List Char} (hgaps : Gaps gaps) (emphasis : Bool)
    (p : Position) : scanText emphasis p gaps = [] := by
  have hplain : plainLength emphasis gaps = gaps.length := by
    induction gaps with
    | nil => rfl
    | cons c gaps ih =>
      obtain ⟨hc, hgaps⟩ := forall_mem_cons.mp hgaps
      have hstop : (c == '{' || (emphasis && opensEmphasis c gaps)) = false := by
        simp only [isGap, Bool.or_eq_true, beq_iff_eq] at hc
        rcases hc with rfl | rfl <;> simp [opensEmphasis]
      rw [plainLength, hstop, ih hgaps]
      rfl
  have hblank : allBlank gaps = true :=
    all_eq_true.mpr fun c hc => isBlank_of_isGap (hgaps c hc)
  rw [scanText_plain hplain, prose, if_pos hblank]

end GuidedTrack.Token
