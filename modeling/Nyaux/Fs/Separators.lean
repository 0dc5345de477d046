import Nyaux.Fs.PathCompose

/-! Paths that differ only in their slashes. -/

namespace Nyaux.Fs

open CString

section

variable {fs : Tmpfs} {d : Nat} {p q : List UInt8}

theorem Resolves.congr {result : Option Nat} (start : startOf d p = startOf d q)
    (same : components slash p = components slash q) (resolves : Resolves fs d p result) :
    Resolves fs d q result := by
  cases resolves with
  | directory ends => exact .directory (start ▸ same ▸ ends)
  | file ends => exact .file (start ▸ same ▸ ends)
  | missing ends => exact .missing (start ▸ same ▸ ends)
  | link ends onward => exact .link (start ▸ same ▸ ends) onward

end

end Nyaux.Fs
