import Nyaux.Lib.Memory
import Nyaux.Mm.Region

/-! `pmm.c`: the list of free pages, threaded through the pages, and the slab caches.

The words of a page are found under its address in the direct map. `offset` is the direct
map's base. -/

namespace Nyaux.Mm

open Word Memory

/-- Where a function stops instead of returning: a halt of the source's own, an access the
processor would trap, or a loop that does not end. -/
inductive Stop where
  | outOfMemory
  | noFreeRegions
  | regionMissing
  | nullDeref
  | pageFault
  | endless
  deriving DecidableEq

theorem ok_bind {α β : Type} (a : α) (f : α → Except Stop β) : (Except.ok a >>= f) = f a := rfl

theorem error_bind {α β : Type} (stop : Stop) (f : α → Except Stop β) :
    (Except.error stop >>= f) = .error stop := rfl

theorem of_bind_ok {α β : Type} {x : Except Stop α} {f : α → Except Stop β} {b : β}
    (ran : (x >>= f) = .ok b) : ∃ a, x = .ok a ∧ f a = .ok b := by
  cases x with
  | error stop => cases ran
  | ok a => exact ⟨a, rfl, ran⟩

theorem not_ok_of_stopped {α : Type} {x : Except Stop α} {first second : Stop} {a : α}
    (stopped : x = .error first ∨ x = .error second) : x ≠ .ok a := by
  intro ran
  rw [ran] at stopped
  rcases stopped with stopped | stopped
  · cases stopped
  · cases stopped

structure Cache where
  slabs : Nat
  size : Nat
  deriving DecidableEq

/-- The kernel's memory and the variables the allocators keep outside of it. -/
structure Kernel where
  mem : Mem
  head : Nat
  kmallocCache : List Cache
  regions : List VmmRegion
  pml4 : Nat

def pmmAllocSinglep (offset : Nat) (k : Kernel) : Except Stop (Nat × Kernel) :=
  if k.head ≠ 0 then .ok (sub64 k.head offset, { k with head := k.mem k.head })
  else .error .outOfMemory

def pmmFreeSinglep (page : Nat) (k : Kernel) : Kernel :=
  { k with mem := store k.mem page k.head, head := page }

/-- The loop that links the objects of a new slab; `n` is one less than their number. -/
def linkObjects (start size : Nat) : Nat → Mem → Mem
  | 0, mem => mem
  | n + 1, mem =>
      store (linkObjects start size n mem) (start + n * size) (start + (n + 1) * size)

def objAmount (size : Nat) : Nat := (4096 - 24) / size

def makeSlab (offset size : Nat) (k : Kernel) : Except Stop (Nat × Kernel) := do
  let (page, k) ← pmmAllocSinglep offset k
  let h := add64 page offset
  let start := h + 24
  let mem := store (store (zeroPage k.mem h) h size) (h + 16) start
  .ok (h, { k with mem := linkObjects start size (objAmount size - 1) mem })

def initCache (offset i size : Nat) (k : Kernel) : Except Stop Kernel := do
  let (h, k) ← makeSlab offset size k
  .ok { k with kmallocCache := k.kmallocCache.set i { slabs := h, size := size } }

def nextPow2 (v : Nat) : Nat :=
  let v := sub64 v 1
  let v := v ||| (v >>> 1)
  let v := v ||| (v >>> 2)
  let v := v ||| (v >>> 4)
  let v := v ||| (v >>> 8)
  let v := v ||| (v >>> 16)
  add64 v 1

def searchForBigenoughcache (size : Nat) (caches : List Cache) : Option Nat :=
  caches.findIdx? fun cache => cache.size ≥ size

def slabFuel : Nat := 2 ^ 52

/-- The loop of `slab_alloc`: the header it stops at, and whether that has a free object. -/
def findSlab (mem : Mem) : Nat → Nat → Except Stop (Bool × Nat)
  | 0, _ => .error .endless
  | fuel + 1, h =>
      if h = 0 then .ok (false, h)
      else if mem (h + 16) ≠ 0 then .ok (true, h)
      else if mem (h + 8) = 0 then .ok (false, h)
      else findSlab mem fuel (mem (h + 8))

/-- `him = h->freelist; h->freelist = him->next`. -/
def takeObject (h : Nat) (k : Kernel) : Nat × Kernel :=
  let him := k.mem (h + 16)
  (him, { k with mem := store k.mem (h + 16) (k.mem him) })

def slabAlloc (offset : Nat) (cache : Cache) (k : Kernel) : Except Stop (Nat × Kernel) := do
  let (found, h) ← findSlab k.mem slabFuel cache.slabs
  if found then .ok (takeObject h k)
  else
    let (newSlab, k) ← makeSlab offset cache.size k
    if h = 0 then .error .nullDeref
    else
      let k := { k with mem := store k.mem (h + 8) newSlab }
      if k.mem (newSlab + 16) = 0 then .error .nullDeref else .ok (takeObject newSlab k)

/-- The last loop of `free`: whether header `h` is on the list, and the last header passed. -/
def findHeader (mem : Mem) (h : Nat) : Nat → Nat → Nat → Except Stop (Bool × Nat)
  | 0, _, _ => .error .endless
  | fuel + 1, prev, shit =>
      if shit = 0 then .ok (false, prev)
      else if shit = h then .ok (true, prev)
      else findHeader mem h fuel shit (mem (shit + 8))

def rightCache (size : Nat) (caches : List Cache) : Option Cache :=
  caches.reverse.find? fun cache => cache.size = size

def free (addr : Nat) (k : Kernel) : Except Stop Kernel :=
  if addr = 0 then .ok k
  else
    let h := alignDown addr 4096
    match rightCache (k.mem h) k.kmallocCache with
    | none => .ok k
    | some rightcache =>
        let mem := store k.mem addr (k.mem (h + 16))
        let mem := store mem (h + 16) addr
        match findHeader mem h slabFuel 0 rightcache.slabs with
        | .error stop => .error stop
        | .ok (true, _) => .ok { k with mem := mem }
        | .ok (false, prev) =>
            if prev = 0 then .error .nullDeref
            else .ok { k with mem := store mem (prev + 8) h }

/-- `kmalloc` for less than 1024 bytes; a request no cache is big enough for returns NULL. -/
def kmallocSlab (offset size : Nat) (k : Kernel) : Except Stop (Nat × Kernel) :=
  match searchForBigenoughcache (nextPow2 size) k.kmallocCache with
  | none => .ok (0, k)
  | some ca =>
      match k.kmallocCache[ca]? with
      | none => .ok (0, k)
      | some cache => slabAlloc offset cache k

end Nyaux.Mm
