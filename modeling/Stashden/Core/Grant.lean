import Stashden.Core.Name

/-!
# Grants (`crates/core/src/grant.rs`)

What the API and the sync client both know of shared folders: the shelf's name and the two accesses.
-/

namespace Stashden.Core

/-- `SHARED_WITH_ME`. -/
def sharedWithMe : Str := "Shared with me".toList

/-- `Access`. -/
inductive Access where
  | read | write
  deriving DecidableEq

/-- `Access::may_write`. -/
def Access.mayWrite : Access → Bool
  | .write => true
  | .read => false

end Stashden.Core
