import Concolic.Hierarchy.Subtype
import Concolic.Method

/-!
# Dispatch

When a call is followed by the entry of a method, a dispatch rule says whether the entered method
can be the target of the call.
-/

namespace Concolic

/-- The first method can run when the second is called. -/
abbrev Dispatch := Hierarchy → Method → Method → Bool

namespace Dispatch

/-- Virtual calls: the entered method is the called one, or overrides it in a declared subclass and
the called one is not final. -/
def virtual : Dispatch := fun h candidate declared =>
  candidate == declared ||
    (!declared.isFinal && h.contains candidate.owner && h.contains declared.owner &&
      candidate.name == declared.name && candidate.signature == declared.signature &&
      h.inherits candidate.owner declared.owner)

/-- Only the called method itself. -/
def exact : Dispatch := fun _ candidate declared => candidate == declared

end Dispatch

end Concolic
