import GuidedTrack.Statement

/-! # Trees without places

What a source means does not depend on where its parts stand. Erasing a tree replaces every span in
it; two trees that are equal then differ in places only.
-/

namespace GuidedTrack

def Name.erase (name : Name) : Name :=
  { name with span := default }

mutual

def Expr.erase : Expr → Expr
  | .identifier name => .identifier name.erase
  | .literal _ value raw => .literal default value raw
  | .binary _ op left right => .binary default op left.erase right.erase
  | .unary _ op argument => .unary default op argument.erase
  | .member _ object property => .member default object.erase property.erase
  | .call _ callee arguments => .call default callee.erase (Expr.eraseList arguments)
  | .index _ object index => .index default object.erase index.erase
  | .array _ elements => .array default (Expr.eraseList elements)
  | .object _ entries => .object default (Entry.eraseList entries)
  | .interpolated _ parts => .interpolated default (Part.eraseList parts)

def Entry.erase : Entry → Entry
  | .mk _ key value => .mk default key.erase value.erase

def Part.erase : Part → Part
  | .text value => .text value
  | .expr value => .expr value.erase

def Expr.eraseList : List Expr → List Expr
  | [] => []
  | value :: rest => value.erase :: Expr.eraseList rest

def Entry.eraseList : List Entry → List Entry
  | [] => []
  | entry :: rest => entry.erase :: Entry.eraseList rest

def Part.eraseList : List Part → List Part
  | [] => []
  | part :: rest => part.erase :: Part.eraseList rest

end

def Prose.erase (prose : Prose) : Prose :=
  ⟨default, Part.eraseList prose.parts⟩

def Argument.erase : Argument → Argument
  | .expr value => .expr value.erase
  | .prose value => .prose value.erase

mutual

def Statement.erase : Statement → Statement
  | .keyword _ name argument subKeywords body =>
    .keyword default name (argument.map Argument.erase) (SubKeyword.eraseList subKeywords)
      (Statement.eraseList body)
  | .answer _ text body => .answer default text.erase (Statement.eraseList body)
  | .prose text => .prose text.erase
  | .expression _ value => .expression default value.erase
  | .comment _ text => .comment default text

def SubKeyword.erase : SubKeyword → SubKeyword
  | .mk _ name argument body =>
    .mk default name (argument.map Argument.erase) (Statement.eraseList body)

def Statement.eraseList : List Statement → List Statement
  | [] => []
  | statement :: rest => statement.erase :: Statement.eraseList rest

def SubKeyword.eraseList : List SubKeyword → List SubKeyword
  | [] => []
  | sub :: rest => sub.erase :: SubKeyword.eraseList rest

end

def Program.erase (program : Program) : Program :=
  ⟨default, Statement.eraseList program.body⟩

end GuidedTrack
