import GuidedTrack.Expr

/-! # Statements and programs

A program is a list of statements. A keyword statement owns its sub-keywords and a body; directly
inside such a body a line of prose is an answer option, which may own a body in turn.
-/

namespace GuidedTrack

structure Prose where
  span : Span
  parts : List Part

inductive Argument where
  | expr (value : Expr)
  | prose (value : Prose)

mutual

inductive Statement where
  | keyword (span : Span) (name : String) (argument : Option Argument)
      (subKeywords : List SubKeyword) (body : List Statement)
  | answer (span : Span) (text : Prose) (body : List Statement)
  | prose (text : Prose)
  | expression (span : Span) (value : Expr)
  | comment (span : Span) (text : String)

inductive SubKeyword where
  | mk (span : Span) (name : String) (argument : Option Argument) (body : List Statement)

end

namespace Statement

def span : Statement → Span
  | keyword span _ _ _ _ | answer span _ _ | expression span _ | comment span _ => span
  | prose text => text.span

end Statement

namespace SubKeyword

def span : SubKeyword → Span
  | mk span _ _ _ => span

end SubKeyword

structure Program where
  span : Span
  body : List Statement

end GuidedTrack
