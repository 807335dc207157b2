import TagMarkup.Rendering.Renderer

/-! A renderer without a state, for which every tag takes a number of passes. -/

namespace TagMarkup

/-- Leaves every tag as it is in the first `delay` passes, and then answers with its key between
angle brackets. It knows no tag with the key `fail`. -/
def Renderer.delayed (delay : Nat) : Renderer Unit where
  answer info _ tag _ :=
    (if tag.key = "fail".toList then .error (.unknownKey tag.key)
     else if info.index < delay then .ok (.pending tag.text)
     else .ok (.final ('<' :: tag.key ++ ['>'])), ())

end TagMarkup
