/-!
# Models

`rkvc::Model`: a bundle of payloads, each with a kind. Of the metadata
only the id and the role are read.
-/

namespace Rkvc
set_option autoImplicit false

structure ModelPayload where
  kind : String
  data : List UInt8
  deriving DecidableEq, Repr

structure Model where
  id : String := ""
  role : String
  payloads : List ModelPayload
  deriving DecidableEq, Repr

/-- The first payload of a kind. -/
def Model.find (m : Model) (kind : String) : Option ModelPayload := m.payloads.find? (·.kind = kind)

end Rkvc
