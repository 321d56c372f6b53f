import GuidedTrack.Proofs.PlaceErasure

/-! # Trees at other places

Two trees are alike if they differ in places only and their names stand at corresponding places.
Which places correspond is left open: any relation will do, and the one that always holds compares
the trees alone.
-/

namespace GuidedTrack

abbrev Offsets (ρ : Int → Int → Prop) (p q : Position) : Prop :=
  ρ p.offset q.offset

structure Name.Like (π : Position → Position → Prop) (a b : Name) : Prop where
  text : b.text = a.text
  place : π a.span.start b.span.start

mutual

/-- An expression and the same expression elsewhere, its names at corresponding places. -/
inductive Expr.Like (π : Position → Position → Prop) : Expr → Expr → Prop where
  | identifier {a b : Name} (name : a.Like π b) : Expr.Like π (.identifier a) (.identifier b)
  | literal {span other : Span} {value : Literal} {raw : String} :
      Expr.Like π (.literal span value raw) (.literal other value raw)
  | binary {span other : Span} {op : BinaryOp} {left right left' right' : Expr}
      (first : Expr.Like π left left') (second : Expr.Like π right right') :
      Expr.Like π (.binary span op left right) (.binary other op left' right')
  | unary {span other : Span} {op : UnaryOp} {argument argument' : Expr}
      (inner : Expr.Like π argument argument') :
      Expr.Like π (.unary span op argument) (.unary other op argument')
  | member {span other : Span} {object object' : Expr} {a b : Name}
      (inner : Expr.Like π object object') (name : a.Like π b) :
      Expr.Like π (.member span object a) (.member other object' b)
  | call {span other : Span} {callee callee' : Expr} {arguments arguments' : List Expr}
      (inner : Expr.Like π callee callee') (rest : Expr.LikeList π arguments arguments') :
      Expr.Like π (.call span callee arguments) (.call other callee' arguments')
  | index {span other : Span} {object object' index index' : Expr}
      (first : Expr.Like π object object') (second : Expr.Like π index index') :
      Expr.Like π (.index span object index) (.index other object' index')
  | array {span other : Span} {elements elements' : List Expr}
      (inner : Expr.LikeList π elements elements') :
      Expr.Like π (.array span elements) (.array other elements')
  | object {span other : Span} {entries entries' : List Entry}
      (inner : Entry.LikeList π entries entries') :
      Expr.Like π (.object span entries) (.object other entries')
  | interpolated {span other : Span} {parts parts' : List Part}
      (inner : Part.LikeList π parts parts') :
      Expr.Like π (.interpolated span parts) (.interpolated other parts')

inductive Expr.LikeList (π : Position → Position → Prop) : List Expr → List Expr → Prop where
  | nil : Expr.LikeList π [] []
  | cons {value value' : Expr} {values values' : List Expr} (first : Expr.Like π value value')
      (rest : Expr.LikeList π values values') :
      Expr.LikeList π (value :: values) (value' :: values')

inductive Entry.LikeList (π : Position → Position → Prop) : List Entry → List Entry → Prop where
  | nil : Entry.LikeList π [] []
  | cons {span other : Span} {key key' value value' : Expr} {entries entries' : List Entry}
      (first : Expr.Like π key key') (second : Expr.Like π value value')
      (rest : Entry.LikeList π entries entries') :
      Entry.LikeList π (.mk span key value :: entries) (.mk other key' value' :: entries')

inductive Part.LikeList (π : Position → Position → Prop) : List Part → List Part → Prop where
  | nil : Part.LikeList π [] []
  | text {value : String} {parts parts' : List Part} (rest : Part.LikeList π parts parts') :
      Part.LikeList π (.text value :: parts) (.text value :: parts')
  | expr {value value' : Expr} {parts parts' : List Part} (first : Expr.Like π value value')
      (rest : Part.LikeList π parts parts') :
      Part.LikeList π (.expr value :: parts) (.expr value' :: parts')

end

section

variable {π : Position → Position → Prop}

theorem Name.Like.erase_eq {a b : Name} (h : a.Like π b) : b.erase = a.erase := by
  rw [Name.erase, Name.erase, h.text]

mutual

theorem Expr.Like.erase_eq {value other : Expr} (h : value.Like π other) :
    other.erase = value.erase := by
  cases h with
  | identifier name => rw [Expr.erase, Expr.erase, name.erase_eq]
  | literal => rfl
  | binary first second | index first second =>
    rw [Expr.erase, Expr.erase, first.erase_eq, second.erase_eq]
  | unary inner | array inner | object inner | interpolated inner =>
    rw [Expr.erase, Expr.erase, inner.erase_eq]
  | member inner name => rw [Expr.erase, Expr.erase, inner.erase_eq, name.erase_eq]
  | call inner rest => rw [Expr.erase, Expr.erase, inner.erase_eq, rest.erase_eq]

theorem Expr.LikeList.erase_eq {values others : List Expr} (h : Expr.LikeList π values others) :
    Expr.eraseList others = Expr.eraseList values := by
  cases h with
  | nil => rfl
  | cons first rest => rw [Expr.eraseList, Expr.eraseList, first.erase_eq, rest.erase_eq]

theorem Entry.LikeList.erase_eq {entries others : List Entry}
    (h : Entry.LikeList π entries others) :
    Entry.eraseList others = Entry.eraseList entries := by
  cases h with
  | nil => rfl
  | cons first second rest =>
    rw [Entry.eraseList, Entry.eraseList, Entry.erase, Entry.erase, first.erase_eq,
      second.erase_eq, rest.erase_eq]

theorem Part.LikeList.erase_eq {parts others : List Part} (h : Part.LikeList π parts others) :
    Part.eraseList others = Part.eraseList parts := by
  cases h with
  | nil => rfl
  | text rest => rw [Part.eraseList, Part.eraseList, rest.erase_eq]
  | expr first rest =>
    rw [Part.eraseList, Part.eraseList, Part.erase, Part.erase, first.erase_eq, rest.erase_eq]

end

end

end GuidedTrack
