import Nyaux.Elf.LoadedImage
import Nyaux.Mm.EnoughPages

/-! When `load_elf_program` comes back with a thread: with enough free pages, and room for the two
regions of a new thread. -/

namespace Nyaux.Elf

open Word Memory Paging Fs Mm

def SegmentCovered (base : Nat) (file : Vnode) (phdr : Elf64Phdr) : Prop :=
  ∀ i < (vnodeRdwrRead file phdr.pFilesz phdr.pOffset).2.length,
    pageIndex (add64 base phdr.pVaddr + i) ∈ segmentPages base phdr

def segmentCost (base : Nat) (phdr : Elf64Phdr) : Nat := 4 * (segmentAddrs base phdr).length + 1

def headersCost (base : Nat) (headers : List Elf64Phdr) : Nat :=
  ((loadHeaders headers).map (segmentCost base)).sum

/-- The pages of the stack, the structures and the kernel's stack. -/
def threadCost (xsaveSize : Nat) : Nat :=
  3 + kmallocCost 4416 + kmallocCost (alignUp xsaveSize 4096) + 1 + 4 * 125

section

variable {offset : Nat} {pages : List Nat} {stock : Mem → List Slab → Prop} {base n : Nat}
  {file : Vnode} {phdr : Elf64Phdr} {s : ProcessState} {k : Kernel} {data : Multiset Nat}

theorem allocBlock_returns (ready : HeapReady offset pages stock data k)
    (direct : Direct offset pages) (nodes : Stable stock (cacheFor 32)) (size : Nat)
    {later : List Nat} (room : RoomFor (kmallocRegions size ++ later) k.regions)
    (enough : FreePages (n + kmallocCost size) k) :
    ∃ block k', allocBlock offset size k = .ok (block, k') ∧ k'.pml4 = k.pml4 ∧
      RoomFor later k'.regions ∧ FreePages n k' := by
  obtain ⟨x, k', ran, nonzero, rest⟩ := ready.kmalloc_returns direct nodes room enough
  refine ⟨x, k', ?_, rest⟩
  rw [allocBlock, ran, ok_bind]
  dsimp only
  rw [if_neg nonzero]

theorem newContext_returns (ready : HeapReady offset pages stock data k)
    (direct : Direct offset pages) (stable : ∀ c, Stable stock c) (xsaveSize entryFunc rsp : Nat)
    (user : Bool) {later : List Nat}
    (room : RoomFor (kmallocRegions (alignUp xsaveSize 4096) ++ later) k.regions)
    (enough : FreePages (n + kmallocCost (alignUp xsaveSize 4096) + 1) k) :
    ∃ context k', newContext offset xsaveSize entryFunc rsp user k = .ok (context, k') ∧
      RoomFor later k'.regions ∧ FreePages n k' := by
  obtain ⟨newGuy, k₁, first, -, room₁, enough₁⟩ :=
    allocBlock_returns ready direct (stable _) 184 room enough
  have step := (allocBlock_spec ready direct first).2 (stable _) fun _ => stable _
  obtain ⟨fpuState, k', second, -, room', enough'⟩ :=
    allocBlock_returns step.ready direct (stable _) _ room₁ enough₁
  have made : ∃ context, newContext offset xsaveSize entryFunc rsp user k = .ok (context, k') := by
    rw [newContext, first, ok_bind]
    dsimp only
    rw [second, ok_bind]
    exact ⟨_, rfl⟩
  obtain ⟨context, ran⟩ := made
  exact ⟨context, k', ran, room', enough'⟩

theorem stack_covers (virt : Nat) (above : newThreadStack ≤ virt) (below : virt < stackTop) :
    pageIndex virt ∈ (loopAddrs newThreadStack 125).map pageIndex := by
  have top := stackTop_eq
  have bottom : newThreadStack = 0x70000000000 := rfl
  rw [loopAddrs, List.map_map, List.mem_map]
  refine ⟨(virt - newThreadStack) / 4096, List.mem_range.mpr (by omega), ?_⟩
  rw [Function.comp_apply, pageAddr_eq (by omega)]
  unfold pageIndex
  omega

theorem startThread_returns (user : s.User offset pages stock) (direct : Direct offset pages)
    (stable : ∀ c, Stable stock c) {args : ElfArgs}
    (window : ∀ mem block, Served stock mem (cacheFor 88) block →
      mem (block + 80) + pushedSize args.pushes ≤ 512000) (xsaveSize entryFunc : Nat)
    (room : RoomFor (kmallocRegions (alignUp xsaveSize 4096) ++ kmallocRegions 4416)
      s.kernel.regions)
    (enough : FreePages (threadCost xsaveSize) s.kernel) :
    ∃ thread s', s.startThread offset xsaveSize entryFunc args = .ok (thread, s') := by
  have nodes := stable (cacheFor 32)
  obtain ⟨count, range⟩ := stack_pages
  obtain ⟨tables, own, user⟩ := user
  have low : ∀ virt ∈ loopAddrs newThreadStack 125, virt < 2 ^ 47 :=
    fun virt member => (range virt member).2
  obtain ⟨k₁, loop, vars₁, enough₁⟩ := user.mapFreshPages_returns direct nodes (userFlags_bits true) _
    low (n := 3 + kmallocCost 4416 + kmallocCost (alignUp xsaveSize 4096) + 1) (by
      rw [show (loopAddrs newThreadStack 125).length = 125 by simp [loopAddrs]]
      exact enough)
  obtain ⟨tables₁, own₁, user₁, bytes₁⟩ :=
    user.mapFreshPages direct nodes (userFlags_bits true) _ low loop
  have stack : s.map.mmapRange offset newThreadStack 512000 (userFlags true) s.kernel =
      .ok (newThreadStack, k₁) := by
    rw [Pagemap.mmapRange, if_neg (by decide), count, Pagemap.root, loop, ok_bind]
  rw [← vars₁.regions] at room
  obtain ⟨context, k₂, made, room₂, enough₂⟩ :=
    newContext_returns user₁.heap direct stable xsaveSize entryFunc stackTop true room enough₁
  have step₂ := newContext_spec user₁.heap direct stable made
  rw [← List.append_nil (kmallocRegions 4416)] at room₂
  obtain ⟨info, k₃, gotInfo, -, -, enough₃⟩ :=
    allocBlock_returns step₂.ready direct nodes 4416 room₂ enough₂
  have step₃ := (allocBlock_spec step₂.ready direct gotInfo).2 nodes fun _ => stable _
  obtain ⟨room₃, cost₃⟩ := kmalloc_small (show 88 < 1024 by decide) k₃.regions
  obtain ⟨block, k₄, gotThread, -, -, enough₄⟩ :=
    allocBlock_returns step₃.ready direct nodes 88 (n := 2) room₃ (cost₃ ▸ enough₃)
  obtain ⟨served, next⟩ := allocBlock_spec step₃.ready direct gotThread
  have step₄ := next nodes fun _ => stable _
  obtain ⟨room₄, cost₄⟩ := kmalloc_small (show 24 < 1024 by decide) k₄.regions
  obtain ⟨gsBase, k₅, gotGs, -, -, enough₅⟩ :=
    allocBlock_returns step₄.ready direct nodes 24 (n := 1) room₄ (cost₄ ▸ enough₄)
  have step₅ := (allocBlock_spec step₄.ready direct gotGs).2 nodes fun _ => stable _
  obtain ⟨page, k₆, gotPage, -⟩ := step₅.ready.pmmAlloc_returns direct (n := 0) enough₅
  have step₆ := step₅.ready.pmmAlloc direct gotPage
  have step := (((step₂.trans step₃).trans step₄).trans step₅).trans step₆
  obtain ⟨user₆, bytes₆⟩ := user₁.kernelStep direct.usable step
  have fits := window _ _ (served (by decide))
  have top := stackTop_eq
  have mapped : ∀ virt, newThreadStack ≤ virt → virt < stackTop →
      userByte offset s.map.pml4 k₆.mem virt ≠ none := by
    intro virt above below
    have small : virt < 2 ^ 47 := by omega
    rw [bytes₆ virt small, bytes₁ virt small, if_pos (stack_covers virt above below)]
    exact Option.some_ne_none 0
  obtain ⟨window₁, mem₁, pushed⟩ := pushAll_exists user₆ direct.usable nodes fits mapped
  obtain ⟨size, user₇, write₇⟩ := pushAll_spec user₆ direct.usable nodes fits pushed
  have aligns : ∃ window₂ mem₂, alignWindow offset s.map.pml4 stackTop window₁ mem₁ =
      .ok (window₂, mem₂) :=
    alignWindow_exists user₇ direct.usable nodes (by omega) fun virt above below =>
      write₇.mapped virt (by omega) (mapped virt above below)
  obtain ⟨window₂, mem₂, aligned⟩ := aligns
  rw [ProcessState.startThread, stack, ok_bind]
  dsimp only
  rw [made, ok_bind]
  dsimp only
  rw [gotInfo, ok_bind]
  dsimp only
  rw [gotThread, ok_bind]
  dsimp only
  rw [gotGs, ok_bind]
  dsimp only
  rw [gotPage, ok_bind]
  dsimp only
  rw [pushed, ok_bind]
  dsimp only
  rw [aligned, ok_bind]
  exact ⟨_, _, rfl⟩

theorem writeBytes_free {pml4 dest : Nat} {tables : List (List Nat × Nat)} {own : Multiset Nat}
    {bytes : List UInt8} {mem' : Mem} (user : UserHalf offset pages stock pml4 k tables own)
    (usable : Usable pages) (nodes : Stable stock (cacheFor 32))
    (low : dest + bytes.length ≤ 2 ^ 47)
    (ran : writeBytes offset pml4 dest bytes k.mem = .ok mem') (enough : FreePages n k) :
    FreePages n { k with mem := mem' } := by
  induction bytes generalizing k dest with
  | nil =>
      obtain rfl := Except.ok.inj ran
      exact enough
  | cons b rest ih =>
      rw [List.length_cons] at low
      have small : dest < 2 ^ 47 := by omega
      rw [writeBytes, access_user small] at ran
      cases found : Mm.translate offset k.mem pml4 dest with
      | none =>
          rw [found] at ran
          cases ran
      | some target =>
          rw [found, add64_of_lt (by omega)] at ran
          have later := ih (user.storeByte usable nodes small found b).1 (by omega) ran
            (user.storeByte_free usable small found b.toNat enough)
          exact later

theorem loadSegment_returns (user : s.User offset pages stock) (direct : Direct offset pages)
    (nodes : Stable stock (cacheFor 32)) (low : ∀ virt ∈ segmentAddrs base phdr, virt < 2 ^ 47)
    (enough : FreePages (n + segmentCost base phdr) s.kernel) :
    ∃ s', s.loadSegment offset base phdr = .ok s' ∧ s'.kernel.regions = s.kernel.regions ∧
      FreePages n s'.kernel := by
  obtain ⟨tables, own, user⟩ := user
  have split : n + segmentCost base phdr = n + 1 + 4 * (segmentAddrs base phdr).length := by
    unfold segmentCost
    omega
  obtain ⟨k₁, loop, vars₁, enough₁⟩ := user.mapFreshPages_returns direct nodes
    (userFlags_bits true) _ low (split ▸ enough)
  obtain ⟨tables₁, own₁, user₁, -⟩ :=
    user.mapFreshPages direct nodes (userFlags_bits true) _ low loop
  obtain ⟨node, k₂, got, vars₂, enough₂⟩ := user₁.heap.allocNode_returns direct.usable enough₁
  rw [ProcessState.loadSegment, Pagemap.root, loop, ok_bind]
  split
  · rw [got, ok_bind]
    exact ⟨_, rfl, vars₂.regions.trans vars₁.regions, enough₂⟩
  · exact ⟨_, rfl, vars₁.regions, enough₁.mono (Nat.le_succ n)⟩

theorem readSegment_returns (user : s.User offset pages stock) (direct : Direct offset pages)
    (nodes : Stable stock (cacheFor 32)) (segment : UserSegment base file phdr)
    (covered : SegmentCovered base file phdr)
    (enough : FreePages (n + segmentCost base phdr) s.kernel) :
    ∃ s', s.readSegment offset base file phdr = .ok s' ∧ s'.User offset pages stock ∧
      s'.kernel.regions = s.kernel.regions ∧ FreePages n s'.kernel := by
  obtain ⟨s₁, loaded, regions, enough₁⟩ :=
    loadSegment_returns user direct nodes segment.pages enough
  obtain ⟨root, ⟨tables, own, user₁⟩, bytes₁⟩ :=
    loadSegment_spec user direct nodes segment.pages loaded
  have writes : ∃ mem', writeBytes offset s₁.map.pml4 (add64 base phdr.pVaddr)
      (vnodeRdwrRead file phdr.pFilesz phdr.pOffset).2 s₁.kernel.mem = .ok mem' := by
    apply writeBytes_exists user₁ direct.usable nodes segment.bytes
    intro virt above below
    obtain ⟨i, rfl⟩ := Nat.exists_eq_add_of_le above
    have small := segment.bytes
    have here := bytes₁ (add64 base phdr.pVaddr + i) (by omega)
    rw [if_pos (covered i (by omega))] at here
    rw [ProcessState.byte] at here
    rw [here]
    exact Option.some_ne_none 0
  obtain ⟨mem', wrote⟩ := writes
  have ran : s.readSegment offset base file phdr =
      .ok ⟨{ s₁.kernel with mem := mem' }, s₁.map⟩ := by
    rw [ProcessState.readSegment, loaded, ok_bind]
    dsimp only
    rw [wrote, ok_bind]
  exact ⟨_, ran, (readSegment_spec user direct nodes segment ran).2.1, regions,
    writeBytes_free user₁ direct.usable nodes segment.bytes wrote enough₁⟩

theorem headers_returns (headers : List Elf64Phdr)
    (short : ∀ phdr ∈ headers, phdr.pType = 3 →
      (vnodeRdwrRead file phdr.pFilesz phdr.pOffset).2.length ≤ 128)
    (turn : ∀ phdr ∈ loadHeaders headers, ∀ (n : Nat) (s : ProcessState),
      s.User offset pages stock → FreePages (n + segmentCost base phdr) s.kernel →
      ∃ s', s.readSegment offset base file phdr = .ok s' ∧ s'.User offset pages stock ∧
        s'.kernel.regions = s.kernel.regions ∧ FreePages n s'.kernel)
    (h : Headers) (user : h.process.User offset pages stock)
    (enough : FreePages (n + headersCost base headers) h.process.kernel) :
    ∃ h', headers.foldlM (Headers.step offset base file) h = .ok h' ∧
      h'.process.User offset pages stock ∧
      h'.process.kernel.regions = h.process.kernel.regions ∧ FreePages n h'.process.kernel := by
  induction headers generalizing h with
  | nil => exact ⟨h, rfl, user, rfl, enough⟩
  | cons phdr rest ih =>
      obtain ⟨here, others⟩ := List.forall_mem_cons.mp short
      rw [List.foldlM_cons]
      by_cases load : phdr.pType = 1
      · rw [headersCost, loadHeaders_cons_pos load, List.map_cons, List.sum_cons,
          Nat.add_comm (segmentCost base phdr), ← Nat.add_assoc] at enough
        rw [loadHeaders_cons_pos load] at turn
        obtain ⟨first, later⟩ := List.forall_mem_cons.mp turn
        obtain ⟨process, read, user₁, regions, enough₁⟩ := first _ h.process user enough
        obtain ⟨h', ran, user', regions', enough'⟩ :=
          ih others later { h with process := process } user₁ enough₁
        refine ⟨h', ?_, user', regions'.trans regions, enough'⟩
        simp only [Headers.step, load]
        rw [read, ok_bind, ok_bind]
        exact ran
      · rw [headersCost, loadHeaders_cons_neg load] at enough
        rw [loadHeaders_cons_neg load] at turn
        have steps : ∃ h₁, Headers.step offset base file h phdr = .ok h₁ := by
          unfold Headers.step
          split
          · rename_i one
            exact absurd one load
          · exact ⟨_, rfl⟩
          · rename_i three
            rw [readInterp, if_pos (here three)]
            exact ⟨_, rfl⟩
          · exact ⟨h, rfl⟩
        obtain ⟨h₁, step⟩ := steps
        have same := h.step_process step load
        obtain ⟨h', ran, user', regions, enough'⟩ := ih others turn h₁ (same ▸ user) (same ▸ enough)
        refine ⟨h', ?_, user', same ▸ regions, enough'⟩
        rw [step, ok_bind]
        exact ran

/-- A file without an interpreter, whose segments stay in their pages of the user half, is loaded
when there are enough free pages. -/
theorem loadElfProgram_returns (direct : Direct offset pages) (stable : ∀ c, Stable stock c)
    (user : s.User offset pages stock) {args : ElfArgs}
    (window : ∀ mem block, Served stock mem (cacheFor 88) block →
      mem (block + 80) + pushedSize args.pushes ≤ 512000) (accepted : Accepted file)
    (plain : ∀ phdr ∈ phdrs file, phdr.pType ≠ 3)
    (segments : ∀ phdr ∈ loadHeaders (phdrs file),
      UserSegment base file phdr ∧ SegmentCovered base file phdr) (xsaveSize : Nat)
    (lookup : List UInt8 → Option Vnode) (stored : Nat) (scratch : List UInt8) (fuel : Nat)
    (room : RoomFor (kmallocRegions (alignUp xsaveSize 4096) ++ kmallocRegions 4416)
      s.kernel.regions)
    (enough : FreePages (threadCost xsaveSize + headersCost base (phdrs file)) s.kernel) :
    ∃ thread s', s.loadElfProgram offset xsaveSize lookup stored scratch (fuel + 1) base file args =
      .ok (some thread, s') := by
  obtain ⟨h, ran, user₁, regions, enough₁⟩ := headers_returns (phdrs file)
    (fun phdr member interp => absurd interp (plain phdr member))
    (fun phdr member n s user enough => by
      obtain ⟨segment, covered⟩ := segments phdr member
      exact readSegment_returns user direct (stable _) segment covered enough)
    ⟨s, stored, false, scratch⟩ user enough
  obtain ⟨thread, s', started⟩ := startThread_returns user₁ direct stable window xsaveSize
    (add64 base (entryPoint file)) (regions ▸ room) enough₁
  refine ⟨thread, s', ?_⟩
  rw [ProcessState.loadElfProgram, if_pos accepted, ran, ok_bind,
    headers_interp _ plain ran, if_neg Bool.false_ne_true, started, ok_bind]

end

end Nyaux.Elf
