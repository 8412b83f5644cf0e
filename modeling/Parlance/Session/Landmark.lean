import Parlance.Region
import Parlance.Session.Names

/-!
Contract: the landmarks of a program.

A landmark is a class, a method, a module in use or an assigned variable, at the outermost level or
directly in a class; a class also has its fields. Owns: landmarks and their nesting. Embeds
`_stmt_to_symbol`, the symbols of `document_symbol`.
-/

namespace Parlance.Session

inductive LandmarkKind where
  | usedModule | declaredClass | method | field | variable
deriving DecidableEq, Repr

def LandmarkKind.number : LandmarkKind → Nat
  | .usedModule => 2
  | .declaredClass => 5
  | .method => 6
  | .field => 8
  | .variable => 13

/-- A landmark with the stretch it covers, the stretch to select for it, and those within it. -/
inductive Landmark where
  | mk (name : String) (kind : LandmarkKind) (detail : Option String) (region : Region)
      (selection : Region) (children : List Landmark)

def fieldLandmark (field : Param Span) : Landmark :=
  .mk field.name .field none field.mark.region field.mark.region []

mutual

def landmark? : Stmt Span → Option Landmark
  | .classBare name body span =>
    some (.mk name .declaredClass none span.region span.region (landmarks body))
  | .classFields name fields body span =>
    some (.mk name .declaredClass (some (paramsText fields)) span.region span.region
      (fields.map fieldLandmark ++ landmarks body))
  | .methodValue shared name params _ span | .methodBlock shared name params _ span =>
    some (.mk (if shared then "self::" ++ name else name) .method
      (some (methodText shared name params)) span.region span.region [])
  | .use path span =>
    some (.mk ("::".intercalate path) .usedModule none span.region span.region [])
  | .assign (.variable name nameSpan) _ _ span =>
    some (.mk name .variable none span.region nameSpan.region [])
  | _ => none

def landmarks : List (Stmt Span) → List Landmark
  | [] => []
  | first :: rest =>
    match landmark? first with
    | some landmark => landmark :: landmarks rest
    | none => landmarks rest

end

end Parlance.Session
