import GuidedTrack.Command

/-! # One more option

An option that needs no value may be put in front of the arguments of a command: the command is the
same but for that option.
-/

namespace GuidedTrack.Command

open List Given

variable {sorted : List Argument} {arguments : List String}

/-! ## Options in front -/

def Given.after (given : Given) (option : Switch × String) : Given :=
  { given with options := option :: given.options }

section

variable (given : Given) (option : Switch × String)

end

end GuidedTrack.Command
