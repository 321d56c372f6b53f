import GuidedTrack.Rule.Labels

/-! # Rules on variables

A variable is defined by the target of an assignment, by the argument of a `*set`, by the name of a
`*save`, or by the names that a `*for` binds. Every other identifier is a read, but for the
properties of members and the names of called functions.
-/

namespace GuidedTrack.Rule

def builtinNames : List String :=
  ["it"]

structure Use where
  name : String
  position : Position
  deriving DecidableEq, Repr

/-- What a tour has found so far: definitions, reads, and the offsets of defining identifiers. -/
structure Variables where
  definitions : List Use := []
  reads : List Use := []
  defining : List Int := []

namespace Variables

def define (known : Variables) (use : Use) : Variables :=
  { known with definitions := known.definitions ++ [use] }

def defineAt (known : Variables) (use : Use) : Variables :=
  { known.define use with defining := known.defining ++ [use.position.offset] }

def addReads (known : Variables) (uses : List Use) : Variables :=
  { known with reads := known.reads ++ uses }

end Variables

/-- The identifiers of some tokens that stand after no dot, before and after the first `in`. -/
def splitAtIn (seenIn afterDot : Bool) : List Token → List Use × List Use
  | [] => ([], [])
  | token :: rest =>
    if token.kind = .operator && token.text == "in" && !seenIn then splitAtIn true false rest
    else
      let (bound, read) := splitAtIn seenIn (token.kind = .dot) rest
      if token.kind = .identifier && !afterDot then
        let use : Use := ⟨token.text, token.span.start⟩
        if seenIn then (bound, use :: read) else (use :: bound, read)
      else (bound, read)

/-- The names that the line starting at an offset binds, and the names of its collection. They are
taken from the tokens, so that a list of names before the `in` binds each of them. -/
def forNames (tokens : List Token) (start : Int) : List Use × List Use :=
  let line := (tokens.filter fun token => start ≤ token.span.start.offset).takeWhile fun token =>
    token.kind ≠ .newline && token.kind ≠ .endOfInput
  splitAtIn false false line

def literalText (prose : Prose) : List Char :=
  Text.trim <| prose.parts.flatMap fun
    | .text value => value.toList
    | .expr _ => []

def isPlainName : List Char → Bool
  | [] => false
  | c :: rest => (c.isAlpha || c == '_') && rest.all fun d => d.isAlphanum || d == '_'

/-- Whether a node is the property of a member or the name of a called function. -/
def isExempt (parent : Option Node) (place : Nat) : Bool :=
  match parent with
  | some (.expr (.member ..)) => place == 1
  | some (.expr (.call ..)) => place == 0
  | _ => false

/-- Takes one step of the tour of a document with the given tokens into account. -/
def observe (tokens : List Token) (known : Variables) (visit : Visit) : Variables :=
  match visit.phase, visit.node with
  | .enter, .statement (.expression _ (.binary _ .equal (.identifier target) _)) =>
    known.defineAt ⟨target.text, target.span.start⟩
  | .enter, .statement (.keyword _ "set" (some (.expr (.identifier target))) _ _) =>
    known.defineAt ⟨target.text, target.span.start⟩
  | .enter, .statement (.keyword span "for" argument _ _) =>
    let (bound, read) := forNames tokens span.start.offset
    let known := bound.foldl Variables.defineAt known
    if argument.isNone then known.addReads read else known
  | .enter, .subKeyword (.mk _ "save" (some (.prose prose)) _) =>
    let name := literalText prose
    if isPlainName name then known.define ⟨String.ofList name, prose.span.start⟩
    else known
  | .enter, .expr (.identifier name) =>
    if known.defining.contains name.span.start.offset ||
        isExempt visit.ancestors.head? visit.place then known
    else known.addReads [⟨name.text, name.span.start⟩]
  | _, _ => known

def variablesOf (document : Document) : Variables :=
  document.visits.foldl (observe document.tokens) {}

def firstUses : List Use → List Use
  | [] => []
  | use :: rest => use :: (firstUses rest).filter fun other => other.name != use.name

def usesName (uses : List Use) (name : String) : Bool :=
  uses.any fun use => use.name == name

def noUndefinedVars : Rule where
  name := "no-undefined-vars"
  severity := .error
  check := onLeave fun document =>
    let found := variablesOf document
    let undefined := found.reads.filter fun use =>
      !builtinNames.contains use.name && !usesName found.definitions use.name
    undefined.map fun use =>
      .ofPosition use.position s!"Variable '{use.name}' is used but never defined"

def noUnusedVars : Rule where
  name := "no-unused-vars"
  severity := .warning
  check := onLeave fun document =>
    let found := variablesOf document
    let unused := (firstUses found.definitions).filter fun use =>
      !usesName found.reads use.name
    unused.map fun use =>
      .ofPosition use.position s!"Variable '{use.name}' is defined but never used"

end GuidedTrack.Rule
