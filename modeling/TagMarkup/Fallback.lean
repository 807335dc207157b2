/-! The choice of what becomes of tags that get no answer. -/

namespace TagMarkup

/-- What becomes of a tag without an answer. -/
inductive Fallback
  /-- The tag stays and is asked about again in the next pass. -/
  | retry
  /-- The tag stays as it is. -/
  | passthrough
  /-- The run ends. -/
  | abort
  deriving DecidableEq, Repr, Inhabited

def Fallback.name : Fallback → String
  | retry => "Retry"
  | passthrough => "Passthrough"
  | abort => "Abort"

end TagMarkup
