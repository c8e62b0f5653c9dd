/-! # Errors of the archive reader -/

namespace ArchiveCore

/-- Every failure names the format or the cap it is about (`error.rs`). -/
inductive ArchiveError
  | decode (format detail : String)
  | tooLarge (cap : Nat)
  | openError (format detail : String)
  | read (format detail : String)
  | indexOutOfRange (index count : Nat)
  | depthExceeded (max : Nat) (chain : String)
  | tooManyEntries (max : Nat)
  | totalInflatedExceeded (cap : Nat)
deriving DecidableEq

/-- The displayed text. -/
def ArchiveError.message : ArchiveError → String
  | .decode format detail => format ++ " decode failed: " ++ detail
  | .tooLarge cap => "decompressed output exceeds the " ++ toString cap ++ "-byte cap"
  | .openError format detail => format ++ " archive open failed: " ++ detail
  | .read format detail => format ++ " member read failed: " ++ detail
  | .indexOutOfRange index count =>
    "member index " ++ toString index ++ " out of range (" ++ toString count ++ " members)"
  | .depthExceeded max chain =>
    "nesting depth exceeded the max of " ++ toString max ++ " at layer chain: " ++ chain
  | .tooManyEntries max => "member count exceeded the max of " ++ toString max
  | .totalInflatedExceeded cap =>
    "cumulative inflated size exceeded the " ++ toString cap ++ "-byte cap"

end ArchiveCore
