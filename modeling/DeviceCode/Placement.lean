/-!
# Placement

Items that lie end to end: where each one starts.
-/

namespace DeviceCode

/-- Where each item starts, when the first starts at `start` and the items have those sizes. -/
def placements (start : Nat) : (sizes : List Nat) → List Nat
  | [] => []
  | size :: sizes => start :: placements (start + size) sizes

end DeviceCode
