import GuidedTrack.Glob
import GuidedTrack.Path

/-! # Files to leave out

A file is left out if a pattern matches its path, seen from the root of the patterns. A file outside
that root is matched as its path is written.
-/

namespace GuidedTrack.Ignore

/-- Whether a pattern matches a path. A pattern that starts with `**/` matches at the root too. -/
def coversText (pattern : String) (path : List Char) : Bool :=
  let whole := pattern.toList
  (Glob.ofChars whole).accepts path ||
    (['*', '*', '/'].isPrefixOf whole && (Glob.ofChars (whole.drop 3)).accepts path)

def subject (path : Path) (root here : Place) : String :=
  match (path.resolve here).below? root with
  | some parts => Path.toString ⟨.relative, parts⟩
  | none => path.toString

def covers (patterns : List String) (path : Path) (root here : Place) : Bool :=
  let text := (subject path root here).toList
  patterns.any fun pattern => coversText pattern text

end GuidedTrack.Ignore
