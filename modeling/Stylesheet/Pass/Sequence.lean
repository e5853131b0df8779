/-
  Stylesheet.Pass.Sequence — passes run one after the other.
-/

import Stylesheet.Pass.Scope
import Stylesheet.Pass.Urls
import Stylesheet.Pass.Inline

namespace Stylesheet

inductive Pass where
  | scope (outer : Text)
  | urls (f : Text → Text)
  | inline (values : List (Text × Text)) (useDeclared : Bool)

def Pass.apply : Pass → List Segment → List Segment
  | .scope outer => Stylesheet.scope outer
  | .urls f => mapUrls f
  | .inline values useDeclared => Stylesheet.inline values useDeclared

def applyAll (passes : List Pass) (segments : List Segment) : List Segment :=
  passes.foldl (fun current pass => pass.apply current) segments

end Stylesheet
