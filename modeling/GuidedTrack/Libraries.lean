import GuidedTrack.Configuration
import GuidedTrack.Listing

/-! # Libraries

Reading YAML, checking what a configuration file holds and colouring the output are left to
libraries. They are a parameter of a run, and nothing is assumed about them.
-/

namespace GuidedTrack

namespace Libraries

/-- What a document holds: nothing, a mapping, or something else. -/
inductive Content (Mapping : Type) where
  | nothing
  | mapping (value : Mapping)
  | other

/-- How a library refuses what it is given: with the error that it announces, or with an exception
that no one expects. -/
inductive Rejection where
  | announced (text : String)
  | unforeseen (text : String)

end Libraries

/-- The libraries that a run relies on. -/
structure Libraries where
  Mapping : Type
  /-- The mapping without entries. -/
  empty : Mapping
  load : String → Except Libraries.Rejection (Libraries.Content Mapping)
  validate : Mapping → Except Libraries.Rejection Configuration.User
  paint : Listing.Paint

end GuidedTrack
