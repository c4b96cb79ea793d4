import StyleHoist.Extraction.Sweep

/-!
The scans of several texts one after the other.  Records pile up over the scans, also over those
that fail; the marked text is that of the last scan that succeeded.
-/

set_option autoImplicit false
set_option relaxedAutoImplicit false

namespace StyleHoist

structure Session where
  records : List Record
  marked : Bytes
  deriving DecidableEq

namespace Session

def empty : Session := ⟨[], []⟩

/-- Scans a text and keeps its records behind those of the scans before. -/
def scan (mode : Mode) (stamp : Stamp) (text : Bytes) (session : Session) : Scan × Session :=
  let result := StyleHoist.scan mode stamp text
  let marked := match result.marked with
    | .ok marked => marked
    | .error _ => session.marked
  (result, { records := session.records ++ result.records, marked })

end Session

end StyleHoist
