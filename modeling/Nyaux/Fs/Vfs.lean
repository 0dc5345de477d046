import Nyaux.Fs.Tmpfs
import Nyaux.Lib.CString

/-! The path walk of `vfs.c` over the directories of `tmpfs.c`.

Vnodes are numbered in the order they are made; number 0 is the root. Blocks from the heap
are as large as they need to be and hold arbitrary bytes. -/

namespace Nyaux.Fs

open CString

structure Tmpfs where
  vnodes : List Vnode

def slash : UInt8 := 47

/-- A structure cleared by `memset`. -/
def zeroNode : TmpfsNode := { data := { addr := 0, bytes := fun _ => 0 }, size := 0 }

def newVnode (type : VnodeType) : Vnode := { type := type, dir := [], node := zeroNode }

def vnodeLookup (fs : Tmpfs) (v : Nat) (part : List UInt8) : Option Nat := do
  let vnode ← fs.vnodes[v]?
  if vnode.type = .dir then
    (vnode.dir.find? fun entry => entry.name = part).map DirEntry.ptrToVnode
  else none

/-- `vnode_mkdir` and `vnode_create`: a new vnode, and an entry for it at the head of the
directory's list. `none` is the result -1. -/
def addEntry (fs : Tmpfs) (v : Nat) (name : List UInt8) (new : Vnode) : Option (Tmpfs × Nat) := do
  let vnode ← fs.vnodes[v]?
  if vnode.type = .dir then
    let made := fs.vnodes.length
    let parent := { vnode with dir := { name := name, ptrToVnode := made } :: vnode.dir }
    some ({ vnodes := fs.vnodes.set v parent ++ [new] }, made)
  else none

def vnodeMkdir (fs : Tmpfs) (v : Nat) (name : List UInt8) : Option (Tmpfs × Nat) :=
  addEntry fs v name (newVnode .dir)

def vnodeCreate (fs : Tmpfs) (v : Nat) (name : List UInt8) : Option (Tmpfs × Nat) :=
  addEntry fs v name (newVnode .file)

/-- `work_with_me` after both loops over it: the path with its slashes turned into
terminators, its own terminator, and the heap bytes behind the block. -/
def workBuffer (path garbage : List UInt8) : List UInt8 :=
  path.map (fun c => if c = slash then 0 else c) ++ 0 :: garbage

/-- The inner loop from index `j` on. Its test of `i` never fails, so it runs up to the first
byte that is not zero, behind the buffer if need be. -/
def scanZeros (pathlen : Nat) : Nat → List UInt8 → Bool → Bool
  | _, [], islast => islast
  | j, c :: rest, islast => if c = 0 then scanZeros pathlen (j + 1) rest (j == pathlen) else islast

def islast (work : List UInt8) (pathlen i lenOfComp : Nat) : Bool :=
  if i + lenOfComp = pathlen then true
  else scanZeros pathlen (i + lenOfComp) (work.drop (i + lenOfComp)) false

/-- What `vnode_path_lookup` returns, and what it leaves in `componentlast`. -/
structure Found where
  vnode : Option Nat
  componentlast : List UInt8

section Walk

variable (fs : Tmpfs) (follow : Nat → List UInt8 → Option (Option Nat)) (getparent : Bool)
  (work : List UInt8) (pathlen : Nat)

/-- The component loop from index `i` on; `fuel` bounds its turns. -/
def walk : Nat → Nat → Nat → List UInt8 → Option Found
  | 0, _, cur, last => some ⟨some cur, last⟩
  | fuel + 1, i, cur, last =>
      if i < pathlen then
        if work.getD i 0 = 0 then walk fuel (i + 1) cur last
        else
          let component := cstring (work.drop i)
          if islast work pathlen i component.length && getparent then
            some ⟨some cur, component⟩
          else
            match vnodeLookup fs cur component with
            | some res =>
                match (fs.vnodes[res]?).map Vnode.type with
                | some .dir => walk fuel (i + component.length + 1) res last
                | some .symlink => (follow cur (link res)).map fun vnode => ⟨vnode, last⟩
                | _ => some ⟨some res, last⟩
            | none => some ⟨if getparent then some cur else none, component⟩
      else some ⟨some cur, last⟩
where
  link (res : Nat) : List UInt8 :=
    match fs.vnodes[res]? with
    | some vnode => cstring ((List.range vnode.node.size).map vnode.node.data.bytes)
    | none => []

end Walk

/-- What the heap holds behind a work buffer and in a fresh `component` block. -/
structure Scratch where
  garbage : List UInt8
  component : List UInt8

/-- `depth` bounds the symlinks followed; `none` when there are more. -/
def vnodePathLookup (fs : Tmpfs) (scratch : Scratch) : Nat → Nat → List UInt8 → Bool →
    List UInt8 → Option Found
  | 0, _, _, _, _ => none
  | depth + 1, cur, path, getparent, componentlast =>
      let start := if path.head? = some slash then 0 else cur
      walk fs (fun cur target =>
          (vnodePathLookup fs scratch depth cur target false []).map Found.vnode)
        getparent (workBuffer path scratch.garbage) path.length (path.length + 1) 0 start
        componentlast

def vfsCreate (fs : Tmpfs) (scratch : Scratch) (depth indir : Nat) (path : List UInt8)
    (type : Nat) : Option (Int × Tmpfs × Option Nat) :=
  if path = [] then some (-1, fs, none)
  else do
    let found ← vnodePathLookup fs scratch depth indir path true (cstring scratch.component)
    match found.vnode with
    | none => some (-1, fs, none)
    | some ourPar =>
        let made := match type with
          | 0 => vnodeMkdir fs ourPar found.componentlast
          | 1 => vnodeCreate fs ourPar found.componentlast
          | _ => none
        -- the result of the tmpfs operation is not looked at
        let ret := if type = 0 ∨ type = 1 then 0 else -1
        match made with
        | some (fs, created) => some (ret, fs, some created)
        | none => some (ret, fs, none)

end Nyaux.Fs
