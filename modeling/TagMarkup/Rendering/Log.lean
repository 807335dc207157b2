import TagMarkup.Rendering.Renderer

/-! A renderer that writes down what happens to another one. -/

namespace TagMarkup

/-- What a run asks of a renderer or tells it. -/
inductive Event
  | startRun
  | answered (info : PassInfo) (path? : Option Path) (tag : SingleTag)
      (answer : Except NoAnswer Answer)
  | endPass (info : PassInfo)
  | endRun (outcome : Outcome)

/-- The renderer `r` with a log of its events, the last one first. -/
def Renderer.logged {σ : Type} (r : Renderer σ) : Renderer (List Event × σ) where
  fallback s := r.fallback s.2
  startRun s := (.startRun :: s.1, r.startRun s.2)
  endPass info s := (.endPass info :: s.1, r.endPass info s.2)
  endRun outcome s := (.endRun outcome :: s.1, r.endRun outcome s.2)
  answer info path? tag s :=
    let answer := r.answer info path? tag s.2
    (answer.1, .answered info path? tag answer.1 :: s.1, answer.2)

end TagMarkup
