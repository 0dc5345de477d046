import Nyaux.Fs.LinkWalk
import Nyaux.Fs.UstarHeader

/-! The loader on arbitrary bytes: what it reads, and when it comes to an end. -/

namespace Nyaux.Fs

open Word CString Orbit Relation

def TarAction.name : TarAction → Option (List UInt8)
  | .directory path => some path
  | .regular path _ => some path
  | .symlink path _ => some path
  | .skip => none

section Depth

variable {fs : Tmpfs} {heap : Heap}

end Depth

section Create

variable {fs : Tmpfs} {heap : Heap} {path : List UInt8}

end Create

section OneTurn

variable {fs : Tmpfs} {heap : Heap} {hdr : List UInt8}

end OneTurn

section Run

variable {heap : Heap} {archive : List UInt8}

end Run

end Nyaux.Fs
